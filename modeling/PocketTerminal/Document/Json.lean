import PocketTerminal.Document.Value
import PocketTerminal.Text.Numeral

/-! # JSON documents

A reader for the JSON grammar. Numbers are checked for their shape only. A text whose
escapes name half of a surrogate pair has no characters, and is kept as unreadable. -/
namespace PocketTerminal.Document.Json

def isSpace (c : Char) : Bool := c == ' ' || c == '\n' || c == '\t' || c == '\r'

def skip (cs : List Char) : List Char := cs.dropWhile isSpace

/-- A character of a text, or the sixteen-bit unit that an escape names. -/
inductive CodeUnit where
  | char (c : Char)
  | unit (n : Nat)

def hex4? (a b c d : Char) : Option Nat := do
  let a ← Text.hexValue? a
  let b ← Text.hexValue? b
  let c ← Text.hexValue? c
  let d ← Text.hexValue? d
  return ((a * 16 + b) * 16 + c) * 16 + d

def escape? : Char → Option Char
  | '"' => some '"'
  | '\\' => some '\\'
  | '/' => some '/'
  | 'b' => some '\x08'
  | 'f' => some '\x0c'
  | 'n' => some '\n'
  | 'r' => some '\r'
  | 't' => some '\t'
  | _ => none

/-- The units of a text up to its closing quote, and what follows it. -/
def units : List Char → Option (List CodeUnit × List Char)
  | [] => none
  | '"' :: rest => some ([], rest)
  | '\\' :: 'u' :: a :: b :: c :: d :: rest =>
    match hex4? a b c d with
    | some n => (units rest).map fun p => (.unit n :: p.1, p.2)
    | none => none
  | '\\' :: c :: rest =>
    match escape? c with
    | some c => (units rest).map fun p => (.char c :: p.1, p.2)
    | none => none
  | c :: rest =>
    if c.toNat < 0x20 then none else (units rest).map fun p => (.char c :: p.1, p.2)

def isHigh (n : Nat) : Bool := 0xD800 ≤ n && n < 0xDC00

def isLow (n : Nat) : Bool := 0xDC00 ≤ n && n < 0xE000

def characters : List CodeUnit → Option (List Char)
  | [] => some []
  | .char c :: rest => (characters rest).map (c :: ·)
  | .unit n :: .unit m :: rest =>
    if isHigh n then
      if isLow m then
        (characters rest).map (Char.ofNat (0x10000 + (n - 0xD800) * 0x400 + (m - 0xDC00)) :: ·)
      else none
    else if isLow n then none
    else (characters (.unit m :: rest)).map (Char.ofNat n :: ·)
  | .unit n :: rest =>
    if isHigh n || isLow n then none else (characters rest).map (Char.ofNat n :: ·)

/-- A text behind its opening quote; it is none when its characters do not exist. -/
def quoted (cs : List Char) : Option (Option String × List Char) :=
  (units cs).map fun p => ((characters p.1).map String.ofList, p.2)

def digits (cs : List Char) : Option (List Char) :=
  if (cs.takeWhile Char.isDigit).isEmpty then none else some (cs.dropWhile Char.isDigit)

def fraction : List Char → Option (List Char)
  | '.' :: cs => digits cs
  | cs => some cs

def exponent : List Char → Option (List Char)
  | 'e' :: cs | 'E' :: cs =>
    match cs with
    | '+' :: cs | '-' :: cs => digits cs
    | cs => digits cs
  | cs => some cs

/-- What follows the whole part at the start, which has no needless zero in front. -/
def whole : List Char → Option (List Char)
  | '0' :: cs => if (cs.takeWhile Char.isDigit).isEmpty then some cs else none
  | cs => digits cs

def number (cs : List Char) : Option (List Char) :=
  (whole (if cs.head? = some '-' then cs.drop 1 else cs)).bind fun cs =>
    (fraction cs).bind exponent

def object (entries : List (Option String × Value)) : Value :=
  match entries.mapM fun entry => entry.1.map fun key => (key, entry.2) with
  | some entries => .table entries
  | none => .unreadable

mutual

/-- A value at the start of a text, and what follows it. Of two steps of the descent one
takes a character, so twice the length of the text bounds it. -/
def value : Nat → List Char → Option (Value × List Char)
  | 0, _ => none
  | n + 1, cs =>
    match skip cs with
    | 'n' :: 'u' :: 'l' :: 'l' :: rest => some (.null, rest)
    | 't' :: 'r' :: 'u' :: 'e' :: rest => some (.scalar, rest)
    | 'f' :: 'a' :: 'l' :: 's' :: 'e' :: rest => some (.scalar, rest)
    | '"' :: rest => (quoted rest).map fun p => (p.1.elim .unreadable .text, p.2)
    | '[' :: rest =>
      match skip rest with
      | ']' :: rest => some (.list [], rest)
      | rest => (items n rest).map fun p => (.list p.1, p.2)
    | '{' :: rest =>
      match skip rest with
      | '}' :: rest => some (.table [], rest)
      | rest => (members n rest).map fun p => (object p.1, p.2)
    | rest => (number rest).map fun rest => (.scalar, rest)

def items : Nat → List Char → Option (List Value × List Char)
  | 0, _ => none
  | n + 1, cs =>
    match value n cs with
    | none => none
    | some (item, rest) =>
      match skip rest with
      | ',' :: rest => (items n rest).map fun p => (item :: p.1, p.2)
      | ']' :: rest => some ([item], rest)
      | _ => none

def members : Nat → List Char → Option (List (Option String × Value) × List Char)
  | 0, _ => none
  | n + 1, cs =>
    match skip cs with
    | '"' :: rest =>
      match quoted rest with
      | none => none
      | some (key, rest) =>
        match skip rest with
        | ':' :: rest =>
          match value n rest with
          | none => none
          | some (item, rest) =>
            match skip rest with
            | ',' :: rest => (members n rest).map fun p => ((key, item) :: p.1, p.2)
            | '}' :: rest => some ([(key, item)], rest)
            | _ => none
        | _ => none
    | _ => none

end

def parse (text : String) : Option Value :=
  match value (2 * text.toList.length + 2) text.toList with
  | some (v, rest) => if (skip rest).isEmpty then some v else none
  | none => none

/-- A record's list may not be longer than the record, and the entry of a choice's table
holds null. -/
def reading : Reading where
  longLists := false
  choicePayload
    | .null => true
    | _ => false

end PocketTerminal.Document.Json
