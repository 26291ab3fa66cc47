import PocketTerminal.Proofs.Chess.Effects

/-! # Outcomes

What can be on a square after a generated move, with all that the move says of the square.
Every property of positions is carried over a move by these cases. -/
namespace PocketTerminal.Chess.Position

open Rules

variable {p : Position} {side : Side} {s t : Square} {m : Move} {kind : PieceKind}

/-- How a piece that leaves as the first kind arrives as the second. -/
def Becomes (side : Side) (m : Move) (kind arrived : PieceKind) : Prop :=
  arrived = kind ∧ (kind = .pawn → m.target.rank ≠ side.other.homeRank) ∨
    kind = .pawn ∧ arrived ≠ .pawn ∧ arrived ≠ .king

inductive Outcome (p : Position) (side : Side) (m : Move) (t : Square) : Option Piece → Prop
  | arrives {kind arrived : PieceKind} : t = m.target → p.at? m.source = some ⟨kind, side⟩ →
      Becomes side m kind arrived → Outcome p side m t (some ⟨arrived, side⟩)
  | leaves : t ≠ m.target → t = m.source → Outcome p side m t none
  | stays : t ≠ m.target → t ≠ m.source → Outcome p side m t (p.at? t)
  | passed : t ≠ m.target → t ≠ m.source → p.enPassant = some m.target →
      p.at? m.source = some ⟨.pawn, side⟩ → Attacks p.at? ⟨.pawn, side⟩ m.source m.target →
      t = ⟨m.target.file, m.source.rank⟩ → Outcome p side m t none
  | rookArrives {kingSide : Bool} : t ≠ m.target → t ≠ m.source →
      p.at? m.source = some ⟨.king, side⟩ → m.source = kingHome side →
      p.Castles side kingSide m → t = ⟨(way kingSide).crossing, side.homeRank⟩ →
      Outcome p side m t (some ⟨.rook, side⟩)
  | rookLeaves {kingSide : Bool} : t ≠ m.target → t ≠ m.source →
      p.at? m.source = some ⟨.king, side⟩ → m.source = kingHome side →
      p.Castles side kingSide m → t = rookHome side kingSide → Outcome p side m t none

theorem forward_ne_homeRank {n : Nat} {df : Int} (hn : 0 < n)
    (h : s.Away t df (n * side.forward)) : t.rank ≠ side.homeRank := by
  have hs := s.rank.isLt
  have hr := h.2
  intro he
  rw [he] at hr
  cases side with
  | white =>
    have hhome : (Side.white.homeRank.val : Int) = 0 := rfl
    simp only [Side.forward] at hr
    omega
  | black =>
    have hhome : (Side.black.homeRank.val : Int) = 7 := rfl
    simp only [Side.forward] at hr
    omega

/-- A double step ends in the middle of the board. -/
theorem double_ne_lastRank (hrank : s.rank = side.pawnRank)
    (h : s.Away t 0 (2 * side.forward)) : t.rank ≠ side.other.homeRank := by
  have hr := h.2
  rw [hrank] at hr
  rw [ne_eq, Fin.ext_iff]
  cases side <;> simp only [Side.forward, Side.pawnRank, Side.other, Side.homeRank] at hr ⊢ <;>
    simp at hr ⊢ <;> omega

theorem becomes_of_promotes (h : Promotes side m) :
    Becomes side m .pawn (m.promotion.getD .pawn) := by
  unfold Promotes at h
  split at h
  · right
    rcases h with h | h | h | h <;> simp [h]
  · next hrank =>
    left
    simp [h, hrank]

theorem becomes_of_moves (hm : Moves p.at? (p.past side) side m)
    (hat : p.at? m.source = some ⟨kind, side⟩) : Becomes side m kind (m.promotion.getD kind) := by
  have hkind {other : PieceKind} (h : p.at? m.source = some ⟨other, side⟩) : kind = other := by
    rw [hat] at h
    cases h
    rfl
  cases hm with
  | pawnStep hpawn _ _ hp =>
    rw [hkind hpawn]
    exact becomes_of_promotes hp
  | pawnDouble hpawn hrank _ _ haway _ hp =>
    rw [hkind hpawn, hp]
    exact .inl ⟨rfl, fun _ => double_ne_lastRank hrank haway⟩
  | pawnTakes hpawn _ _ hp =>
    rw [hkind hpawn]
    exact becomes_of_promotes hp
  | pawnPasses hpawn _ _ hp =>
    rw [hkind hpawn]
    exact becomes_of_promotes hp
  | piece hne hother _ _ hp =>
    rw [hkind hother, hp]
    exact .inl ⟨rfl, fun he => absurd he hne⟩
  | castles _ _ hking _ _ _ _ _ _ _ _ hp =>
    rw [hkind hking, hp]
    refine .inl ⟨rfl, fun he => ?_⟩
    cases he

theorem attacks_of_passes (hm : Moves p.at? (p.past side) side m)
    (hat : p.at? m.source = some ⟨.pawn, side⟩) (hfile : m.source.file ≠ m.target.file) :
    Attacks p.at? ⟨.pawn, side⟩ m.source m.target := by
  rcases (moves_pawn_iff hat).mp hm with (⟨haway, -⟩ | ⟨-, middle, -, -, haway, -⟩) | ⟨hattacks, -⟩
  · exact absurd haway.file_eq hfile
  · exact absurd haway.file_eq hfile
  · exact hattacks

theorem outcome_apply (hm : Moves p.at? (p.past side) side m) (t : Square) :
    Outcome p side m t ((p.apply m).at? t) := by
  obtain ⟨kind, hat⟩ := hm.exists_kind
  rw [at?_apply hm]
  by_cases ht : t = m.target
  · have harrives : after p.at? m t = some ⟨m.promotion.getD kind, side⟩ := by
      unfold after
      rw [hat]
      dsimp only
      rw [if_pos ht]
      cases m.promotion <;> rfl
    rw [harrives]
    exact .arrives ht hat (becomes_of_moves hm hat)
  by_cases hs : t = m.source
  · have hleaves : after p.at? m t = none := by
      unfold after
      rw [hat]
      dsimp only
      rw [if_neg ht, if_pos hs]
    rw [hleaves]
    exact .leaves ht hs
  by_cases hpawn : kind = .pawn
  · subst hpawn
    rw [after_pawn hat ht hs]
    split
    · next h =>
      obtain ⟨hfile, hempty, hvictim⟩ := h
      exact .passed ht hs (passes_of_moves hm hat hfile hempty) hat (attacks_of_passes hm hat hfile)
        hvictim
    · exact .stays ht hs
  by_cases hking : kind = .king
  · subst hking
    rcases (moves_piece_iff (by decide) hat).mp hm with ⟨⟨d, hd, haway⟩, -⟩ |
      ⟨-, hhome, -, kingSide, hcastles⟩
    · -- A step of the king is never two files wide.
      rw [after_king hat ht hs]
      · exact .stays ht hs
      · intro kingSide hland
        obtain ⟨hd1, -, -⟩ := unit_of_queen hd
        have := toward_cases kingSide
        unfold Square.Away at haway hland
        omega
    · obtain ⟨hrook, -, -, crossing, -, hland, -⟩ := id hcastles
      rw [after_castles hat ht hs hhome hland, hrook]
      split
      · next hcross => exact .rookArrives ht hs hat hhome hcastles hcross
      · split
        · next hcorner => exact .rookLeaves ht hs hat hhome hcastles hcorner
        · exact .stays ht hs
  · rw [after_other hat ht hs hpawn hking]
    exact .stays ht hs

end PocketTerminal.Chess.Position
