import PocketTerminal.Proofs.Chess.Boards

/-! # The rules of chess

The rules as a player would state them: which squares a piece attacks on a board, which
moves the pieces have, what a move makes of the board, and that it must not leave the
king attacked. What the rules ask of the game so far is read off the record of its moves. -/
namespace PocketTerminal.Chess

abbrev Board := Square → Option Piece

namespace Rules

def Straight (d : Int × Int) : Prop := d.1.natAbs + d.2.natAbs = 1

def Diagonal (d : Int × Int) : Prop := d.1.natAbs = 1 ∧ d.2.natAbs = 1

def Jump (d : Int × Int) : Prop :=
  d.1.natAbs = 1 ∧ d.2.natAbs = 2 ∨ d.1.natAbs = 2 ∧ d.2.natAbs = 1

/-- From one square in a direction to another, with all squares strictly between empty. -/
def Slides (b : Board) (d : Int × Int) (s t : Square) : Prop :=
  ∃ n : Nat, 0 < n ∧ s.Away t (n * d.1) (n * d.2) ∧
    ∀ (k : Nat) (u : Square), 0 < k → k < n → s.Away u (k * d.1) (k * d.2) → b u = none

/-- The piece, standing on the first square, attacks the second. -/
def Attacks (b : Board) (piece : Piece) (s t : Square) : Prop :=
  match piece.kind with
  | .pawn => s.Away t (-1) piece.side.forward ∨ s.Away t 1 piece.side.forward
  | .knight => ∃ d, Jump d ∧ s.Away t d.1 d.2
  | .bishop => ∃ d, Diagonal d ∧ Slides b d s t
  | .rook => ∃ d, Straight d ∧ Slides b d s t
  | .queen => ∃ d, (Straight d ∨ Diagonal d) ∧ Slides b d s t
  | .king => ∃ d, (Straight d ∨ Diagonal d) ∧ s.Away t d.1 d.2

def Attacked (b : Board) (side : Side) (t : Square) : Prop :=
  ∃ s kind, b s = some ⟨kind, side⟩ ∧ Attacks b ⟨kind, side⟩ s t

/-- What the rules ask of the moves made so far, for the side to move. -/
structure Past where
  /-- A pawn of the other side has just passed over the square in a double step. -/
  passed : Square → Prop
  /-- Neither the king nor its rook on the king's or the queen's side has moved, and the
  rook has not been taken. -/
  unmoved : Bool → Prop

/-- A pawn becomes one of four pieces on the last rank, and nothing else anywhere else. -/
def Promotes (side : Side) (m : Move) : Prop :=
  if m.target.rank = side.other.homeRank then
    m.promotion = some .queen ∨ m.promotion = some .rook ∨ m.promotion = some .bishop ∨
      m.promotion = some .knight
  else m.promotion = none

def kingHome (side : Side) : Square := ⟨4, side.homeRank⟩

def rookHome (side : Side) (kingSide : Bool) : Square := ⟨if kingSide then 7 else 0, side.homeRank⟩

def Inside (side : Side) (kingSide : Bool) (s : Square) : Prop :=
  s.rank = side.homeRank ∧
    if kingSide then 4 < s.file.val ∧ s.file.val < 7 else 0 < s.file.val ∧ s.file.val < 4

def toward (kingSide : Bool) : Int := if kingSide then 1 else -1

/-- The moves of a side's pieces, whether they leave its king attacked or not. -/
inductive Moves (b : Board) (past : Past) (side : Side) : Move → Prop
  | pawnStep {m : Move} : b m.source = some ⟨.pawn, side⟩ →
      m.source.Away m.target 0 side.forward → b m.target = none → Promotes side m →
      Moves b past side m
  | pawnDouble {m : Move} {middle : Square} : b m.source = some ⟨.pawn, side⟩ →
      m.source.rank = side.pawnRank → m.source.Away middle 0 side.forward → b middle = none →
      m.source.Away m.target 0 (2 * side.forward) → b m.target = none → m.promotion = none →
      Moves b past side m
  | pawnTakes {m : Move} {kind : PieceKind} : b m.source = some ⟨.pawn, side⟩ →
      Attacks b ⟨.pawn, side⟩ m.source m.target → b m.target = some ⟨kind, side.other⟩ →
      Promotes side m → Moves b past side m
  | pawnPasses {m : Move} : b m.source = some ⟨.pawn, side⟩ →
      Attacks b ⟨.pawn, side⟩ m.source m.target → past.passed m.target → Promotes side m →
      Moves b past side m
  | piece {m : Move} {kind : PieceKind} : kind ≠ .pawn → b m.source = some ⟨kind, side⟩ →
      Attacks b ⟨kind, side⟩ m.source m.target → (∀ own, b m.target ≠ some ⟨own, side⟩) →
      m.promotion = none → Moves b past side m
  | castles {m : Move} {crossing : Square} (kingSide : Bool) : m.source = kingHome side →
      b m.source = some ⟨.king, side⟩ → b (rookHome side kingSide) = some ⟨.rook, side⟩ →
      past.unmoved kingSide →
      (∀ u, Inside side kingSide u → b u = none) →
      m.source.Away crossing (toward kingSide) 0 → m.source.Away m.target (2 * toward kingSide) 0 →
      ¬ Attacked b side.other m.source → ¬ Attacked b side.other crossing →
      ¬ Attacked b side.other m.target → m.promotion = none → Moves b past side m

/-- The board after a move. A pawn that goes to another file without taking what is there
takes in passing, and a king that goes two files brings its rook to the other side. -/
def after (b : Board) (m : Move) : Board := fun s =>
  match b m.source with
  | none => b s
  | some piece =>
    if s = m.target then some (m.promotion.elim piece fun kind => ⟨kind, piece.side⟩)
    else if s = m.source then none
    else if piece.kind = .pawn ∧ m.source.file ≠ m.target.file ∧ b m.target = none ∧
        s = ⟨m.target.file, m.source.rank⟩ then none
    else if piece.kind = .king ∧ m.source.Away m.target 2 0 ∧ s = ⟨5, m.source.rank⟩ then
      b ⟨7, m.source.rank⟩
    else if piece.kind = .king ∧ m.source.Away m.target 2 0 ∧ s = ⟨7, m.source.rank⟩ then none
    else if piece.kind = .king ∧ m.source.Away m.target (-2) 0 ∧ s = ⟨3, m.source.rank⟩ then
      b ⟨0, m.source.rank⟩
    else if piece.kind = .king ∧ m.source.Away m.target (-2) 0 ∧ s = ⟨0, m.source.rank⟩ then none
    else b s

structure Legal (b : Board) (past : Past) (side : Side) (m : Move) : Prop where
  moves : Moves b past side m
  safe : ∀ k, after b m k = some ⟨.king, side⟩ → ¬ Attacked (after b m) side.other k

/-- What a record of moves says of the past. -/
def Past.ofRecord (record : List Move) (b : Board) (side : Side) : Past where
  passed s := ∃ last, record.getLast? = some last ∧ b last.target = some ⟨.pawn, side.other⟩ ∧
    last.source.Away last.target 0 (2 * side.other.forward) ∧
    last.source.Away s 0 side.other.forward
  unmoved kingSide := ∀ m ∈ record, m.source ≠ kingHome side ∧
    m.source ≠ rookHome side kingSide ∧ m.target ≠ rookHome side kingSide

end Rules
end PocketTerminal.Chess
