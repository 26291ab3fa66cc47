import PocketTerminal.Text.Blank

/-! # Keys and directions

The fixed vocabulary of key presses, the tokens that name them, and the four grid
directions that the arcade games steer by. -/
namespace PocketTerminal

inductive Key where
  | char (c : Char)
  | enter
  | backspace
  | escape
  | arrowUp
  | arrowDown
  | arrowLeft
  | arrowRight
  | tab
deriving DecidableEq, Repr, Inhabited

namespace Key

def named : List (String × Key) :=
  [("Enter", enter), ("Backspace", backspace), ("Escape", escape), ("ArrowUp", arrowUp),
   ("ArrowDown", arrowDown), ("ArrowLeft", arrowLeft), ("ArrowRight", arrowRight), ("Tab", tab)]

/-- A token is a key's name or a single character that is not a control character. -/
def parse (token : String) : Option Key :=
  match named.lookup token with
  | some key => some key
  | none =>
    match token.toList with
    | [c] => if Text.isControl c then none else some (char c)
    | _ => none

def lowerChar : Key → Option Char
  | char c => some c.toLower
  | _ => none

end Key

inductive Direction where
  | up
  | down
  | left
  | right
deriving DecidableEq, Repr, Inhabited

namespace Direction

def all : List Direction := [up, down, left, right]

def delta : Direction → Int × Int
  | up => (0, -1)
  | down => (0, 1)
  | left => (-1, 0)
  | right => (1, 0)

def opposite : Direction → Direction
  | up => down
  | down => up
  | left => right
  | right => left

def ofKey : Key → Option Direction
  | .arrowUp => some up
  | .arrowDown => some down
  | .arrowLeft => some left
  | .arrowRight => some right
  | .char c =>
    match c.toLower with
    | 'w' => some up
    | 's' => some down
    | 'a' => some left
    | 'd' => some right
    | _ => none
  | _ => none

end Direction
end PocketTerminal
