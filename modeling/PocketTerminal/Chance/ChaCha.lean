/-! # ChaCha blocks

The ChaCha function with twelve rounds: a key of eight words and a number of a block
give sixteen words. -/
namespace PocketTerminal.Chance.ChaCha

abbrev Key := Vector UInt32 8

abbrev Block := Vector UInt32 16

def rotate (x : UInt32) (n : UInt32) : UInt32 := (x <<< n) ||| (x >>> (32 - n))

def quarter (x : Block) (a b c d : Fin 16) : Block :=
  let xa := x[a] + x[b]
  let xd := rotate (x[d] ^^^ xa) 16
  let xc := x[c] + xd
  let xb := rotate (x[b] ^^^ xc) 12
  let xa := xa + xb
  let xd := rotate (xd ^^^ xa) 8
  let xc := xc + xd
  let xb := rotate (xb ^^^ xc) 7
  (((x.set a xa).set b xb).set c xc).set d xd

def doubleRound (x : Block) : Block :=
  let x := quarter x 0 4 8 12
  let x := quarter x 1 5 9 13
  let x := quarter x 2 6 10 14
  let x := quarter x 3 7 11 15
  let x := quarter x 0 5 10 15
  let x := quarter x 1 6 11 12
  let x := quarter x 2 7 8 13
  quarter x 3 4 9 14

/-- The words that a block starts from: four constants, the key, and the number. -/
def initial (key : Key) (number : UInt64) : Block :=
  #v[0x61707865, 0x3320646e, 0x79622d32, 0x6b206574,
     key[0], key[1], key[2], key[3], key[4], key[5], key[6], key[7],
     number.toUInt32, (number >>> 32).toUInt32, 0, 0]

def block (key : Key) (number : UInt64) : Block :=
  let start := initial key number
  Vector.zipWith (· + ·) start (Nat.repeat doubleRound 6 start)

def word (key : Key) (i : Nat) : UInt32 :=
  (block key (i / 16).toUInt64).get ⟨i % 16, Nat.mod_lt i (by decide)⟩

end PocketTerminal.Chance.ChaCha
