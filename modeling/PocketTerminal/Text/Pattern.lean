/-! # Patterns

The commands that search leave patterns to a library, of which they use three functions. The
library that the shell has reads literal characters, dots, stars and the two ends of a text, and
follows the places of a text that a pattern can lead to. -/
namespace PocketTerminal.Text

/-- What a search needs of a library of patterns. -/
structure PatternLibrary where
  Pattern : Type
  /-- A text spelled so that a pattern takes it literally. -/
  escape : String → String
  /-- The pattern that a text spells, unless it spells none or one that is too large. -/
  compile? : String → Option Pattern
  /-- Whether a pattern is anywhere in a text. -/
  isMatch : Pattern → String → Bool

inductive Atom where
  | exactly (c : Char)
  | dot
deriving DecidableEq, Repr

inductive Item where
  | once (a : Atom)
  | many (a : Atom)
  | start
  | finish
deriving DecidableEq, Repr

structure Pattern where
  fold : Bool
  items : List Item
deriving DecidableEq, Repr

def isSpecial (c : Char) : Bool :=
  ['\\', '.', '+', '*', '?', '(', ')', '|', '[', ']', '{', '}', '^', '$'].contains c

def isEscapable (c : Char) : Bool :=
  c.toNat < 128 && !c.isAlphanum && c != '<' && c != '>'

namespace Pattern

/-- An atom before what is read behind it: a star in front, of which the flag tells, is for it. -/
def withAtom (a : Atom) (behind : Bool × List Item) : Bool × List Item :=
  (false, (if behind.1 then .many a else .once a) :: behind.2)

def withStar (behind : Bool × List Item) : Option (Bool × List Item) :=
  if behind.1 then none else some (true, behind.2)

def withEnd (item : Item) (behind : Bool × List Item) : Option (Bool × List Item) :=
  if behind.1 then none else some (false, item :: behind.2)

def readItems : List Char → Option (Bool × List Item)
  | [] => some (false, [])
  | '\\' :: c :: rest =>
    if isEscapable c then (readItems rest).map (withAtom (.exactly c)) else none
  | '.' :: rest => (readItems rest).map (withAtom .dot)
  | '*' :: rest => (readItems rest).bind withStar
  | '^' :: rest => (readItems rest).bind (withEnd .start)
  | '$' :: rest => (readItems rest).bind (withEnd .finish)
  | c :: rest => if isSpecial c then none else (readItems rest).map (withAtom (.exactly c))

def ofItems (fold : Bool) (body : List Char) : Option Pattern :=
  match readItems body with
  | some (false, items) => some ⟨fold, items⟩
  | _ => none

def read : List Char → Option Pattern
  | '(' :: '?' :: 'i' :: ')' :: body => ofItems true body
  | body => ofItems false body

def limit : Nat := 262144

end Pattern

def Atom.takes (fold : Bool) : Atom → Char → Bool
  | exactly p, c => p == c || (fold && p.toLower == c.toLower)
  | dot, c => c != '\n'

/-- The places of a text that the items read so far can lead to: one flag for each place
before a character, and one for the end. -/
abbrev Places := List Bool

def advancePlaces (fold : Bool) (a : Atom) (places : Places) (text : List Char) : Places :=
  false :: List.zipWith (fun here c => here && a.takes fold c) places text

/-- The places at or behind the given ones with nothing on the way that an atom does not take.
`carried` tells whether the place before leads here. -/
def spreadPlaces (fold : Bool) (a : Atom) (carried : Bool) : Places → List Char → Places
  | [], _ => []
  | here :: places, [] => (here || carried) :: spreadPlaces fold a false places []
  | here :: places, c :: text =>
    (here || carried) :: spreadPlaces fold a ((here || carried) && a.takes fold c) places text

def keepPlace (place : Nat) (places : Places) : Places :=
  places.zipIdx.map fun (here, i) => here && i == place

def afterItem (fold : Bool) (text : List Char) (places : Places) : Item → Places
  | .once a => advancePlaces fold a places text
  | .many a => spreadPlaces fold a false places text
  | .start => keepPlace 0 places
  | .finish => keepPlace text.length places

def afterItems (fold : Bool) (text : List Char) (places : Places) (items : List Item) : Places :=
  items.foldl (afterItem fold text) places

def Pattern.occursIn (p : Pattern) (text : List Char) : Bool :=
  (afterItems p.fold text (List.replicate (text.length + 1) true) p.items).any id

def PatternLibrary.simple : PatternLibrary where
  Pattern := Text.Pattern
  escape text :=
    String.ofList (text.toList.flatMap fun c => if isSpecial c then ['\\', c] else [c])
  compile? text := if text.length ≤ Pattern.limit then Pattern.read text.toList else none
  isMatch p text := p.occursIn text.toList

end PocketTerminal.Text
