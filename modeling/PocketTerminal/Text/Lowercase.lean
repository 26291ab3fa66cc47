import PocketTerminal.Text.LetterCase

/-! # Lower case

The lower case of a text, character by character, but for two: a capital sigma that ends
a word becomes the final small sigma, and a capital I with a dot keeps its dot as a
character of its own. -/
namespace PocketTerminal.Text

/-- Whether the nearest character that a rule does not look past is a letter with case. -/
def besideLetter (neighbours : List Char) : Bool :=
  ((neighbours.dropWhile LetterCase.isIgnorable).head?.map LetterCase.isCased).getD false

def lowerChar (before : List Char) (c : Char) (behind : List Char) : List Char :=
  if c.toNat < 0x80 then [c.toLower]
  else if c = 'Σ' then [if besideLetter before && !besideLetter behind then 'ς' else 'σ']
  else if c = 'İ' then ['i', '\u0307']
  else [LetterCase.small c]

def lowerFrom (before : List Char) : List Char → List Char
  | [] => []
  | c :: cs => lowerChar before c cs ++ lowerFrom (c :: before) cs

def lower (s : String) : String := String.ofList (lowerFrom [] s.toList)

end PocketTerminal.Text
