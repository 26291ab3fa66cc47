/-! # Chess pieces and squares

Squares are named as in algebraic notation: file 0 is the a-file, rank 0 the first rank. -/
namespace PocketTerminal.Chess

/-- The board has files and ranks, so that numerals can stand for them. -/
instance boardWidth : @NeZero Nat Zero.ofOfNat0 8 := ⟨Nat.succ_ne_zero 7⟩

inductive Side where
  | white
  | black
deriving DecidableEq, Repr, Inhabited

namespace Side

def other : Side → Side
  | white => black
  | black => white

def name : Side → String
  | white => "White"
  | black => "Black"

def forward : Side → Int
  | white => 1
  | black => -1

def homeRank : Side → Fin 8
  | white => 0
  | black => 7

def pawnRank : Side → Fin 8
  | white => 1
  | black => 6

end Side

inductive PieceKind where
  | pawn
  | knight
  | bishop
  | rook
  | queen
  | king
deriving DecidableEq, Repr

namespace PieceKind

def value : PieceKind → Nat
  | pawn => 1
  | knight | bishop => 3
  | rook => 5
  | queen => 9
  | king => 0

def letter : PieceKind → Char
  | pawn => 'P'
  | knight => 'N'
  | bishop => 'B'
  | rook => 'R'
  | queen => 'Q'
  | king => 'K'

def ofPromotionKey (c : Char) : Option PieceKind :=
  match c.toLower with
  | 'q' => some queen
  | 'r' => some rook
  | 'b' => some bishop
  | 'n' => some knight
  | _ => none

def promotions : List PieceKind := [queen, rook, bishop, knight]

end PieceKind

structure Piece where
  kind : PieceKind
  side : Side
deriving DecidableEq, Repr

structure Square where
  file : Fin 8
  rank : Fin 8
deriving DecidableEq, Repr, Inhabited

namespace Square

/-- The squares from a1 along the ranks to h8. -/
def all : List Square :=
  (List.finRange 8).flatMap fun rank => (List.finRange 8).map fun file => ⟨file, rank⟩

def coordinate? (n : Int) : Option (Fin 8) :=
  if h : 0 ≤ n ∧ n < 8 then some ⟨n.toNat, by omega⟩ else none

def offset (s : Square) (d : Int × Int) : Option Square :=
  match coordinate? (s.file.val + d.1), coordinate? (s.rank.val + d.2) with
  | some file, some rank => some ⟨file, rank⟩
  | _, _ => none

def rayFrom (d : Int × Int) : Nat → Square → List Square
  | 0, _ => []
  | n + 1, s =>
    match s.offset d with
    | some t => t :: rayFrom d n t
    | none => []

def ray (s : Square) (d : Int × Int) : List Square := rayFrom d 7 s

def name (s : Square) : String :=
  String.ofList [Char.ofNat ('a'.toNat + s.file), Char.ofNat ('1'.toNat + s.rank)]

def parse (text : String) : Option Square :=
  match text.toList with
  | [f, r] =>
    let f := f.toLower
    match coordinate? ((f.toNat : Int) - 'a'.toNat), coordinate? ((r.toNat : Int) - '1'.toNat) with
    | some file, some rank => some ⟨file, rank⟩
    | _, _ => none
  | _ => none

end Square

structure Move where
  source : Square
  target : Square
  /-- What a pawn on the last rank becomes. -/
  promotion : Option PieceKind := none
deriving DecidableEq, Repr

def Move.name (m : Move) : String :=
  m.source.name ++ m.target.name ++
    String.ofList (m.promotion.map fun kind => kind.letter.toLower).toList

end PocketTerminal.Chess
