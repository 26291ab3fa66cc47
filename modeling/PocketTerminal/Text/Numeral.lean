/-! # Reading and writing numerals

A numeral is read when it is a run of decimal digits, with at most one plus sign in
front, whose value stays below a bound. Leading zeros are fine; blanks are not.
-/
namespace PocketTerminal.Text

def digitsValue (cs : List Char) : Nat :=
  cs.foldl (fun n c => n * 10 + (c.toNat - '0'.toNat)) 0

def unsignedDigits : List Char → List Char
  | '+' :: cs => cs
  | cs => cs

def numeral? (bound : Nat) (s : String) : Option Nat :=
  let cs := unsignedDigits s.toList
  if cs.isEmpty || !cs.all Char.isDigit then none
  else
    let n := digitsValue cs
    if n < bound then some n else none

def word64? (s : String) : Option UInt64 := (numeral? UInt64.size s).map Nat.toUInt64

def padLeft (fill : Char) (width : Nat) (s : String) : String :=
  String.ofList (List.replicate (width - s.toList.length) fill) ++ s

def padRight (width : Nat) (s : String) : String :=
  s ++ String.ofList (List.replicate (width - s.toList.length) ' ')

def hexValue? (c : Char) : Option Nat :=
  if '0' ≤ c && c ≤ '9' then some (c.toNat - '0'.toNat)
  else if 'a' ≤ c && c ≤ 'f' then some (c.toNat - 'a'.toNat + 10)
  else if 'A' ≤ c && c ≤ 'F' then some (c.toNat - 'A'.toNat + 10)
  else none

def hexDigit (n : Nat) : Char :=
  if n < 10 then Char.ofNat (n + '0'.toNat) else Char.ofNat (n - 10 + 'a'.toNat)

end PocketTerminal.Text
