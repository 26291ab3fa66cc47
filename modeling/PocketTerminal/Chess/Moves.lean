import PocketTerminal.Chess.Position

/-! # Chess moves

The moves that pieces can make without a thought for their king, what a move does to a
position, and the legal moves, which are those that leave the king unattacked. -/
namespace PocketTerminal.Chess

namespace Position

/-- A pawn's move to a square, which on the last rank is one move for every promotion. -/
def pawnMoves (source target : Square) : List Move :=
  if target.rank = 0 || target.rank = 7 then
    PieceKind.promotions.map fun kind => { source, target, promotion := some kind }
  else [{ source, target }]

def pawnSteps (p : Position) (side : Side) (source : Square) : List Move :=
  match source.offset (0, side.forward) with
  | none => []
  | some one =>
    if (p.at? one).isSome then []
    else
      pawnMoves source one ++
        if source.rank = side.pawnRank then
          match one.offset (0, side.forward) with
          | some two => if (p.at? two).isSome then [] else [{ source, target := two }]
          | none => []
        else []

/-- A pawn's captures on one side of it, the one in passing included. -/
def pawnCaptures (p : Position) (side : Side) (source : Square) (df : Int) : List Move :=
  match source.offset (df, side.forward) with
  | none => []
  | some target =>
    if (p.at? target).any (fun piece => piece.side != side) || p.enPassant = some target then
      pawnMoves source target
    else []

def stepMove (p : Position) (side : Side) (source : Square) (d : Int × Int) : List Move :=
  match source.offset d with
  | none => []
  | some target =>
    if (p.at? target).all (fun piece => piece.side != side) then [{ source, target }] else []

/-- The squares of a ray that a piece can slide to: up to the first piece, which it takes
if it is of the other side. -/
def reachable (p : Position) (side : Side) : List Square → List Square
  | [] => []
  | s :: rest =>
    match p.at? s with
    | none => s :: p.reachable side rest
    | some piece => if piece.side = side then [] else [s]

def slides (p : Position) (side : Side) (source : Square) (d : Int × Int) : List Move :=
  (p.reachable side (source.ray d)).map fun target => { source, target }

/-- The files that have to be empty between king and rook, and those that the king
crosses and lands on. -/
structure CastlingWay where
  kingSide : Bool
  rookFile : Fin 8
  empty : List (Fin 8)
  crossing : Fin 8
  landing : Fin 8

def castlingWays : List CastlingWay :=
  [⟨true, 7, [5, 6], 5, 6⟩, ⟨false, 0, [1, 2, 3], 3, 2⟩]

def canCastle (p : Position) (side : Side) (way : CastlingWay) : Bool :=
  let rank := side.homeRank
  p.castling.get side way.kingSide && p.at? ⟨way.rookFile, rank⟩ == some ⟨.rook, side⟩ &&
    way.empty.all (fun file => (p.at? ⟨file, rank⟩).isNone) &&
    !p.isAttacked ⟨way.crossing, rank⟩ side.other && !p.isAttacked ⟨way.landing, rank⟩ side.other

def castlingMoves (p : Position) (side : Side) (source : Square) : List Move :=
  if source = ⟨4, side.homeRank⟩ && !p.isAttacked source side.other then
    (castlingWays.filter (p.canCastle side)).map fun way =>
      { source, target := ⟨way.landing, side.homeRank⟩ }
  else []

/-- What the piece on a square can do, whether its king is left in check or not. -/
def movesOf (p : Position) (piece : Piece) (source : Square) : List Move :=
  let side := piece.side
  match piece.kind with
  | .pawn =>
    p.pawnSteps side source ++ p.pawnCaptures side source (-1) ++ p.pawnCaptures side source 1
  | .knight => knightJumps.flatMap (p.stepMove side source)
  | .bishop => bishopRays.flatMap (p.slides side source)
  | .rook => rookRays.flatMap (p.slides side source)
  | .queen => (rookRays ++ bishopRays).flatMap (p.slides side source)
  | .king =>
    (rookRays ++ bishopRays).flatMap (p.stepMove side source) ++ p.castlingMoves side source

def pseudoMovesFrom (p : Position) (source : Square) : List Move :=
  match p.at? source with
  | some piece => p.movesOf piece source
  | none => []

def takePassed (p : Position) (piece : Piece) (m : Move) : Position :=
  if piece.kind = .pawn && p.enPassant = some m.target && (p.at? m.target).isNone then
    p.put ⟨m.target.file, m.source.rank⟩ none
  else p

def gap (a b : Fin 8) : Nat := ((a.val : Int) - b.val).natAbs

def moveRook (p : Position) (piece : Piece) (m : Move) : Position :=
  if piece.kind = .king && gap m.source.file m.target.file = 2 then
    let rank := m.source.rank
    let (before, after) : Fin 8 × Fin 8 := if m.target.file = 6 then (7, 5) else (0, 3)
    (p.put ⟨before, rank⟩ none).put ⟨after, rank⟩ (p.at? ⟨before, rank⟩)
  else p

/-- The square in the middle of a pawn's double step. -/
def passedSquare (piece : Piece) (m : Move) : Option Square :=
  if piece.kind = .pawn && gap m.source.rank m.target.rank = 2 then
    some ⟨m.source.file, ⟨(m.source.rank.val + m.target.rank.val) / 2, by omega⟩⟩
  else none

def arriving (piece : Piece) (m : Move) : Piece :=
  match m.promotion with
  | some kind => if piece.kind = .pawn then { piece with kind := kind } else piece
  | none => piece

/-- A move carried out, legal or not; from an empty square nothing moves. -/
def apply (p : Position) (m : Move) : Position :=
  match p.at? m.source with
  | none => p
  | some piece =>
    let q := (p.takePassed piece m).moveRook piece m
    let q := (q.put m.source none).put m.target (some (arriving piece m))
    { q with
      sideToMove := piece.side.other
      castling := (p.castling.touch m.source).touch m.target
      enPassant := passedSquare piece m }

def pseudoMoves (p : Position) : List Move :=
  (Square.all.filter fun s => (p.at? s).any fun piece => piece.side == p.sideToMove).flatMap
    p.pseudoMovesFrom

def legalMoves (p : Position) : List Move :=
  p.pseudoMoves.filter fun m => !(p.apply m).inCheck p.sideToMove

def legalMovesFrom (p : Position) (source : Square) : List Move :=
  p.legalMoves.filter fun m => m.source == source

def play (p : Position) (m : Move) : Bool × Position :=
  if p.legalMoves.contains m then (true, p.apply m) else (false, p)

def lines (p : Position) : Nat → Nat
  | 0 => 1
  | 1 => p.legalMoves.length
  | n + 1 => (p.legalMoves.map fun m => (p.apply m).lines n).sum

end Position

inductive Status where
  | playing
  | check
  | checkmate (winner : Side)
  | stalemate
deriving DecidableEq, Repr

def Status.isOver : Status → Bool
  | checkmate _ | stalemate => true
  | _ => false

def Position.status (p : Position) : Status :=
  let side := p.sideToMove
  match p.legalMoves.isEmpty, p.inCheck side with
  | true, true => .checkmate side.other
  | true, false => .stalemate
  | false, true => .check
  | false, false => .playing

end PocketTerminal.Chess
