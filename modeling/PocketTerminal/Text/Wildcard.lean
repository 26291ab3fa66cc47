import PocketTerminal.Text.Pattern

/-! # Wildcards

What is typed for a search is translated to a pattern: a star stands for any run of characters
and, where that is wanted, a question mark for any one of them. Everything else is meant
literally. -/
namespace PocketTerminal.Text

variable (lib : PatternLibrary)

/-- The pattern of a wildcard. A question mark is one only where `single` is set. -/
def wildcard? (single : Bool) (c : Char) : Option String :=
  if c = '*' then some ".*" else if c = '?' && single then some "." else none

/-- A translation as far as it has come: the pattern that has been made and the literal text that
is still to be put behind it. -/
structure Translation where
  made : String := ""
  literal : String := ""

namespace Translation

def push (single : Bool) (t : Translation) (c : Char) : Translation :=
  match wildcard? single c with
  | some wild => ⟨t.made ++ lib.escape t.literal ++ wild, ""⟩
  | none => { t with literal := t.literal.push c }

def finish (t : Translation) : String := t.made ++ lib.escape t.literal

end Translation

def wildcardBody (single : Bool) (text : String) : String :=
  (text.toList.foldl (Translation.push lib single) {}).finish lib

def globPattern (glob : String) : String := "^" ++ wildcardBody lib true glob ++ "$"

def linePattern (fold : Bool) (text : String) : String :=
  (if fold then "(?i)" else "") ++ wildcardBody lib false text

end PocketTerminal.Text
