import PocketTerminal.Fault
import PocketTerminal.Text.Blank
import PocketTerminal.Text.Numeral

/-! # Colors

Four channels of eight bits. In text a color is three, six or eight hexadecimal digits
behind any number of `#`; it is written in lower case with one `#`, and with its alpha
channel only when that is not full. -/
namespace PocketTerminal

structure Color where
  r : UInt8
  g : UInt8
  b : UInt8
  a : UInt8
deriving DecidableEq, Repr, Inhabited

namespace Color

def rgb (r g b : UInt8) : Color := ⟨r, g, b, 255⟩

def withAlpha (c : Color) (a : UInt8) : Color := { c with a := a }

/-- The channel that two hexadecimal digits denote. -/
def channel (high low : Nat) : UInt8 := (high * 16 + low).toUInt8

def ofDigits? : List Nat → Option Color
  | [r, g, b] => some (rgb (channel r r) (channel g g) (channel b b))
  | [r, r', g, g', b, b'] => some (rgb (channel r r') (channel g g') (channel b b'))
  | [r, r', g, g', b, b', a, a'] =>
    some ⟨channel r r', channel g g', channel b b', channel a a'⟩
  | _ => none

def digitChars (text : String) : List Char :=
  (Text.trimChars text.toList).dropWhile (· == '#')

def ofHex (text : String) : Except Fault Color :=
  match ((digitChars text).mapM Text.hexValue?).bind ofDigits? with
  | some color => .ok color
  | none => .error (.badColor text)

def channelHex (c : UInt8) : List Char :=
  [Text.hexDigit (c.toNat / 16), Text.hexDigit (c.toNat % 16)]

def toHex (c : Color) : String :=
  String.ofList <| '#' :: channelHex c.r ++ channelHex c.g ++ channelHex c.b ++
    (if c.a = 255 then [] else channelHex c.a)

end Color
end PocketTerminal
