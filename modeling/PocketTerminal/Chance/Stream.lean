import PocketTerminal.Chance.ChaCha

/-! # Streams of chances

A stream is an endless row of words with a place in it. All that a game leaves to chance
is drawn from a stream, so a seed fixes the game. A draw that has to reject words gives
up after a fixed number of them and takes the least value of its range, so that every
draw ends, and ends in its range, on every stream. -/
namespace PocketTerminal.Chance

structure Stream where
  word : Nat → UInt32
  pos : Nat := 0

namespace Stream

instance : Inhabited Stream := ⟨⟨fun _ => 0, 0⟩⟩

def stretch (state : UInt64) : UInt64 := state * 6364136223846793005 + 11634580027462260723

def keyWord (state : UInt64) : UInt32 :=
  let x := (((state >>> 18) ^^^ state) >>> 27).toUInt32
  let turn := (state >>> 59).toUInt32
  (x >>> turn) ||| (x <<< ((32 - turn) % 32))

def stretched (seed : UInt64) (i : Nat) : UInt64 := Nat.repeat stretch (i + 1) seed

def keyOf (seed : UInt64) : ChaCha.Key := Vector.ofFn fun i => keyWord (stretched seed i)

def ofSeed (seed : UInt64) : Stream :=
  let key := keyOf seed
  { word := ChaCha.word key }

/-- The stream of a seed, or the one that stands ready for games without a seed. -/
def ofSeed? (seed : Option UInt64) (free : Stream) : Stream := seed.elim free ofSeed

def word32 (s : Stream) : UInt32 × Stream := (s.word s.pos, { s with pos := s.pos + 1 })

/-- Two words, the lower one first. -/
def word64 (s : Stream) : UInt64 × Stream :=
  ((s.word s.pos).toUInt64 ||| ((s.word (s.pos + 1)).toUInt64 <<< 32),
    { s with pos := s.pos + 2 })

/-- How many words a draw may reject. -/
def patience : Nat := 1000

/-- The first value that an offer accepts, within a number of offers. -/
def firstOf {α : Type} (offer : Stream → Option α × Stream) (least : α) :
    Nat → Stream → α × Stream
  | 0, s => (least, s)
  | n + 1, s =>
    match offer s with
    | (some a, s) => (a, s)
    | (none, s) => firstOf offer least n s

/-- The value below `n` that a word of so many bits stands for, unless it is one of the
words too many for an even share. -/
def share (bits n word : Nat) : Option Nat :=
  if (word * n) % (1 <<< bits) < n <<< (bits - 1 - n.log2) then some ((word * n) >>> bits)
  else none

def below32 (n : Nat) : Stream → Nat × Stream :=
  firstOf (fun s => let (w, s) := s.word32; (share 32 n w.toNat, s)) 0 patience

def below64 (n : Nat) : Stream → Nat × Stream :=
  firstOf (fun s => let (w, s) := s.word64; (share 64 n w.toNat, s)) 0 patience

def between (low high : Int) (s : Stream) : Int × Stream :=
  let (n, s) := s.below32 (high - low).toNat
  (low + n, s)

def choose {α : Type} (items : List α) (s : Stream) : Option α × Stream :=
  let (i, s) := s.below64 items.length
  (items[i]?, s)

def chance (threshold : UInt64) (s : Stream) : Bool × Stream :=
  let (w, s) := s.word64
  (w < threshold, s)

/-- A fraction from zero up to but without one, in steps of `2 ^ -23`. -/
def fraction (s : Stream) : Float32 × Stream :=
  let (w, s) := s.word32
  (Float32.ofBits ((0x3F800000 : UInt32) ||| (w >>> 9)) - 1.0, s)

def uniform (low high : Float32) : Stream → Float32 × Stream :=
  firstOf (fun s =>
    let (u, s) := s.fraction
    let x := u * (high - low) + low
    (if x < high then some x else none, s)) low patience

/-- The greatest fraction below one. -/
def lastFraction : Float32 := Float32.ofBits 0x3F7FFFFE

/-- A scale made smaller by single steps until the last fraction stays within `high`. -/
def tighten (low high : Float32) : Nat → Float32 → Float32
  | 0, scale => scale
  | n + 1, scale =>
    if scale * lastFraction + low > high then
      tighten low high n (Float32.ofBits (scale.toBits - 1))
    else scale

/-- A number from `-extent` to `extent`, both included. -/
def symmetric (extent : Float32) (s : Stream) : Float32 × Stream :=
  let (u, s) := s.fraction
  let low := -extent
  (u * tighten low extent 8 ((extent - low) / lastFraction) + low, s)

end Stream
end PocketTerminal.Chance
