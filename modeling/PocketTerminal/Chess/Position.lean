import PocketTerminal.Chess.Board

/-! # Chess positions

The board with all else that the rules ask for, and which squares are attacked on it. -/
namespace PocketTerminal.Chess

/-- The rights to castle; each is gone for good when its king or rook has moved or the
rook has been taken. -/
structure Castling where
  whiteKing : Bool := false
  whiteQueen : Bool := false
  blackKing : Bool := false
  blackQueen : Bool := false
deriving DecidableEq, Repr

namespace Castling

def full : Castling := ⟨true, true, true, true⟩

def get (c : Castling) (side : Side) (kingSide : Bool) : Bool :=
  match side, kingSide with
  | .white, true => c.whiteKing
  | .white, false => c.whiteQueen
  | .black, true => c.blackKing
  | .black, false => c.blackQueen

/-- The rights that are left when a piece leaves a square or is taken on it. -/
def touch (c : Castling) (s : Square) : Castling :=
  match s.file, s.rank with
  | 4, 0 => { c with whiteKing := false, whiteQueen := false }
  | 4, 7 => { c with blackKing := false, blackQueen := false }
  | 0, 0 => { c with whiteQueen := false }
  | 7, 0 => { c with whiteKing := false }
  | 0, 7 => { c with blackQueen := false }
  | 7, 7 => { c with blackKing := false }
  | _, _ => c

end Castling

structure Position where
  board : Vector (Option Piece) 64
  sideToMove : Side
  castling : Castling := {}
  /-- The square that a pawn has just passed over in a double step. -/
  enPassant : Option Square := none
deriving DecidableEq

def Square.index (s : Square) : Fin 64 := ⟨s.rank * 8 + s.file, by omega⟩

namespace Position

def at? (p : Position) (s : Square) : Option Piece := p.board[s.index]

def put (p : Position) (s : Square) (piece : Option Piece) : Position :=
  { p with board := p.board.set s.index piece }

def empty (side : Side) : Position := { board := Vector.replicate 64 none, sideToMove := side }

def backRank : List PieceKind :=
  [.rook, .knight, .bishop, .queen, .king, .bishop, .knight, .rook]

def putFile (p : Position) (file : Fin 8) (kind : PieceKind) : Position :=
  (((p.put ⟨file, 0⟩ (some ⟨kind, .white⟩)).put ⟨file, 1⟩ (some ⟨.pawn, .white⟩)).put
    ⟨file, 6⟩ (some ⟨.pawn, .black⟩)).put ⟨file, 7⟩ (some ⟨kind, .black⟩)

def initial : Position :=
  ((List.finRange 8).zip backRank).foldl (fun p (file, kind) => p.putFile file kind)
    { empty .white with castling := .full }

def knightJumps : List (Int × Int) :=
  [(1, 2), (2, 1), (2, -1), (1, -2), (-1, -2), (-2, -1), (-2, 1), (-1, 2)]

def rookRays : List (Int × Int) := [(1, 0), (-1, 0), (0, 1), (0, -1)]

def bishopRays : List (Int × Int) := [(1, 1), (1, -1), (-1, 1), (-1, -1)]

def holds (p : Position) (side : Side) (kinds : List PieceKind) (s : Square) : Bool :=
  (p.at? s).any fun piece => piece.side == side && kinds.contains piece.kind

def stepHolds (p : Position) (side : Side) (kinds : List PieceKind) (s : Square)
    (d : Int × Int) : Bool :=
  (s.offset d).any (p.holds side kinds)

def rayHolds (p : Position) (side : Side) (kinds : List PieceKind) (s : Square)
    (d : Int × Int) : Bool :=
  ((s.ray d).find? fun t => (p.at? t).isSome).any (p.holds side kinds)

/-- Whether a piece of a side attacks a square. Its pawns are looked for the other way
than they go. -/
def isAttacked (p : Position) (s : Square) (side : Side) : Bool :=
  p.stepHolds side [.pawn] s (-1, -side.forward) ||
    p.stepHolds side [.pawn] s (1, -side.forward) ||
    knightJumps.any (p.stepHolds side [.knight] s) ||
    (rookRays ++ bishopRays).any (p.stepHolds side [.king] s) ||
    rookRays.any (p.rayHolds side [.rook, .queen] s) ||
    bishopRays.any (p.rayHolds side [.bishop, .queen] s)

def kingSquare? (p : Position) (side : Side) : Option Square :=
  Square.all.find? fun s => p.at? s == some ⟨.king, side⟩

def inCheck (p : Position) (side : Side) : Bool :=
  (p.kingSquare? side).any fun s => p.isAttacked s side.other

end Position
end PocketTerminal.Chess
