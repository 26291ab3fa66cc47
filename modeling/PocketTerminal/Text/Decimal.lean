import PocketTerminal.Text.Numeral

/-! # Decimal fractions

Decimal notation read as a number in single precision, rounded once to the nearest. -/
namespace PocketTerminal.Text

/-- Digits, a point and digits, with the rest: at least one digit on either side of it. -/
def decimalDigits (cs : List Char) : Option (List Char × List Char × List Char) :=
  let whole := cs.takeWhile Char.isDigit
  let rest := cs.dropWhile Char.isDigit
  let (places, rest) :=
    match rest with
    | '.' :: rest => (rest.takeWhile Char.isDigit, rest.dropWhile Char.isDigit)
    | rest => ([], rest)
  if whole.isEmpty && places.isEmpty then none else some (whole, places, rest)

def decimalPower : List Char → Option Int
  | [] => some 0
  | 'e' :: cs | 'E' :: cs =>
    let digits := match cs with
      | '+' :: ds | '-' :: ds => ds
      | ds => ds
    if digits.isEmpty || !digits.all Char.isDigit then none
    else
      let n : Int := digitsValue digits
      some (if cs.head? = some '-' then -n else n)
  | _ => none

/-- The number `n * 10 ^ power`, which has so many digits. Far outside the range of the
numbers it is infinite or zero. -/
def scaled (n : Nat) (length : Nat) (power : Int) : Float32 :=
  if n = 0 || power + length < -60 then 0.0
  else if 60 < power + length then Float32.ofBits 0x7F800000
  else Float32.ofScientific n (power < 0) power.natAbs

def magnitude? (cs : List Char) : Option Float32 :=
  let name := String.ofList (cs.map Char.toLower)
  if name = "inf" || name = "infinity" then some (Float32.ofBits 0x7F800000)
  else if name = "nan" then some (Float32.ofBits 0x7FC00000)
  else
    (decimalDigits cs).bind fun (whole, places, rest) =>
      (decimalPower rest).map fun power =>
        let digits := (whole ++ places).dropWhile (· == '0')
        scaled (digitsValue digits) digits.length (power - places.length)

/-- A number in decimal notation, a sign in front and a power of ten behind it or not;
infinity and the number that is none have names. -/
def decimal? (s : String) : Option Float32 :=
  match s.toList with
  | '+' :: cs => magnitude? cs
  | '-' :: cs => (magnitude? cs).map Float32.neg
  | cs => magnitude? cs

end PocketTerminal.Text
