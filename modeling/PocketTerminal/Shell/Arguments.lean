import PocketTerminal.Text.Blank

/-! # Flags and positional arguments

An argument that starts with a dash, and is not only a dash, gives its letters to the
flags. Behind two dashes alone every argument is positional. -/
namespace PocketTerminal.Shell

structure Arguments where
  flags : List Char := []
  positional : List String := []
deriving DecidableEq, Repr

namespace Arguments

def has (a : Arguments) (flag : Char) : Bool := a.flags.contains flag

def withFront (arg : String) (a : Arguments) : Arguments :=
  match arg.toList with
  | '-' :: c :: letters => { a with flags := c :: letters ++ a.flags }
  | _ => { a with positional := arg :: a.positional }

def parse : List String → Arguments
  | [] => {}
  | arg :: rest => if arg = "--" then { positional := rest } else (parse rest).withFront arg

end Arguments
end PocketTerminal.Shell
