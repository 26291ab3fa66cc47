import PocketTerminal.Text.Blank

/-! # Message templates

A template names its holes in braces, `{path}`. Filling goes pair by pair through the
whole text, so a later pair also sees what an earlier pair has put in.
-/
namespace PocketTerminal.Text

def afterStart : List Char → List Char → Option (List Char)
  | [], cs => some cs
  | _ :: _, [] => none
  | p :: ps, c :: cs => if p = c then afterStart ps cs else none

/-- Every occurrence of a pattern, found from left to right without overlap, exchanged
for a value. The number is how many characters still belong to an occurrence already
exchanged. -/
def replaceFrom (pattern value : List Char) : Nat → List Char → List Char
  | _, [] => []
  | skip + 1, _ :: cs => replaceFrom pattern value skip cs
  | 0, c :: cs =>
    if (afterStart pattern (c :: cs)).isSome then
      value ++ replaceFrom pattern value (pattern.length - 1) cs
    else c :: replaceFrom pattern value 0 cs

def hole (key : String) : List Char := '{' :: key.toList ++ ['}']

/-- A template with every hole of the listed keys filled; other holes stay. -/
def fill (template : String) (pairs : List (String × String)) : String :=
  String.ofList <| pairs.foldl
    (fun text pair => replaceFrom (hole pair.1) pair.2.toList 0 text) template.toList

end PocketTerminal.Text
