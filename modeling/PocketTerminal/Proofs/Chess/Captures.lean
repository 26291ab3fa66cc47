import PocketTerminal.Proofs.Chess.Invariant

/-! # Attacks and captures

A side attacks a square that holds a piece of the other side exactly when it has a move that
takes the piece, its king's safety aside. This is so in every position, whether it can come
about in a game or not: what moves without attacking, the pawns ahead and the castling king,
goes to empty squares. -/
namespace PocketTerminal.Chess

namespace Rules

variable {b : Board} {past : Past} {side : Side} {s t : Square} {m : Move} {kind taken : PieceKind}

/-- Wherever a pawn goes, there is a promotion, or none, that the rules ask for there. -/
theorem exists_promotes (side : Side) (s t : Square) :
    ∃ promotion, Promotes side ⟨s, t, promotion⟩ := by
  by_cases hlast : t.rank = side.other.homeRank
  · exact ⟨some .queen, by simp [Promotes, hlast]⟩
  · exact ⟨none, by simp [Promotes, hlast]⟩

/-- A move that does not end on an empty square is made along an attack. -/
theorem Moves.attacked_of_taken (hm : Moves b past side m) (htaken : b m.target ≠ none) :
    Attacked b side m.target := by
  cases hm with
  | pawnStep _ _ hempty _ => exact absurd hempty htaken
  | pawnDouble _ _ _ _ _ hempty _ => exact absurd hempty htaken
  | pawnTakes hat hattacks _ _ => exact ⟨m.source, .pawn, hat, hattacks⟩
  | pawnPasses hat hattacks _ _ => exact ⟨m.source, .pawn, hat, hattacks⟩
  | piece _ hat hattacks _ _ => exact ⟨m.source, _, hat, hattacks⟩
  | castles kingSide hhome _ _ _ hempty _ hland _ _ _ _ =>
    rw [hhome] at hland
    refine absurd (hempty _ ?_) htaken
    rw [(Position.away_landing_iff _ kingSide).mp hland]
    exact Position.Sound.inside_landing _ kingSide

/-- What a piece attacks of the other side, it can take. -/
theorem Attacks.exists_moves (past : Past) (hattacks : Attacks b ⟨kind, side⟩ s t)
    (hat : b s = some ⟨kind, side⟩) (htaken : b t = some ⟨taken, side.other⟩) :
    ∃ m : Move, m.source = s ∧ m.target = t ∧ Moves b past side m := by
  by_cases hpawn : kind = .pawn
  · subst hpawn
    obtain ⟨promotion, hp⟩ := exists_promotes side s t
    exact ⟨⟨s, t, promotion⟩, rfl, rfl, .pawnTakes hat hattacks htaken hp⟩
  · have hother : ∀ own, b t ≠ some ⟨own, side⟩ := by
      intro own hown
      rw [htaken] at hown
      exact side.other_ne (Piece.of_some_eq hown).2
    exact ⟨⟨s, t, none⟩, rfl, rfl, .piece hpawn hat hattacks hother rfl⟩

end Rules

namespace Position

open Rules

variable {p : Position} {side : Side} {s t : Square} {m : Move} {kind taken : PieceKind}

theorem mem_pseudoMovesFrom_iff (hat : p.at? s = some ⟨kind, side⟩) :
    m ∈ p.pseudoMovesFrom s ↔ m.source = s ∧ Moves p.at? (p.past side) side m := by
  unfold pseudoMovesFrom
  simp only [hat]
  exact mem_movesOf_iff hat

/-- In every position, a square with a piece of the other side is attacked exactly where a
piece of the side has a move that ends there, whether the move leaves its king in check or not. -/
theorem isAttacked_iff_takes (p : Position) (side : Side) {t : Square} {taken : PieceKind}
    (htaken : p.at? t = some ⟨taken, side.other⟩) :
    p.isAttacked t side = true ↔ ∃ s kind, p.at? s = some ⟨kind, side⟩ ∧
      ∃ m ∈ p.pseudoMovesFrom s, m.target = t := by
  constructor
  · intro hattacked
    obtain ⟨s, kind, hat, hattacks⟩ := isAttacked_iff.mp hattacked
    obtain ⟨m, hs, ht, hm⟩ := hattacks.exists_moves (p.past side) hat htaken
    exact ⟨s, kind, hat, m, (mem_pseudoMovesFrom_iff hat).mpr ⟨hs, hm⟩, ht⟩
  · rintro ⟨s, kind, hat, m, hm, rfl⟩
    have hmoves := ((mem_pseudoMovesFrom_iff hat).mp hm).2
    refine isAttacked_iff.mpr (hmoves.attacked_of_taken ?_)
    intro hempty
    rw [hempty] at htaken
    cases htaken

/-- A rook stands on the square that a pawn is said to have passed over, as in no game, and a
white pawn beside that pawn's way attacks it. -/
theorem isAttacked_iff_takes_rook :
    ∃ p : Position, p = { ((empty .white).put ⟨4, 5⟩ (some ⟨.rook, .black⟩)).put ⟨3, 4⟩
        (some ⟨.pawn, .white⟩) with enPassant := some ⟨4, 5⟩ } ∧
      p.at? ⟨4, 5⟩ = some ⟨.rook, Side.white.other⟩ ∧ p.isAttacked ⟨4, 5⟩ .white = true ∧
      ∃ s kind, p.at? s = some ⟨kind, .white⟩ ∧ ∃ m ∈ p.pseudoMovesFrom s, m.target = ⟨4, 5⟩ := by
  have htaken : ({ ((empty .white).put ⟨4, 5⟩ (some ⟨.rook, .black⟩)).put ⟨3, 4⟩
      (some ⟨.pawn, .white⟩) with enPassant := some ⟨4, 5⟩ } : Position).at? ⟨4, 5⟩ =
        some ⟨.rook, Side.white.other⟩ := by decide +kernel
  have hattacked : ({ ((empty .white).put ⟨4, 5⟩ (some ⟨.rook, .black⟩)).put ⟨3, 4⟩
      (some ⟨.pawn, .white⟩) with enPassant := some ⟨4, 5⟩ } : Position).isAttacked ⟨4, 5⟩ .white =
        true := by decide +kernel
  exact ⟨_, rfl, htaken, hattacked, (isAttacked_iff_takes _ .white htaken).mp hattacked⟩

end Position
end PocketTerminal.Chess
