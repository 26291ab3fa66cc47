import PocketTerminal.Proofs.Chess.Outcomes

/-! # Sound positions

The invariant of games. A king is never taken, since the side that has just moved is not in
check, and a square passed over has the pawn to be taken right behind it. -/
namespace PocketTerminal.Chess.Position

open Rules

/-- The last move was a double step over the square, by the side that is not to move. -/
structure JustPassed (p : Position) (last : Move) (s : Square) : Prop where
  near : last.source.Away s 0 p.sideToMove.other.forward
  beyond : s.Away last.target 0 p.sideToMove.other.forward
  origin_empty : p.at? last.source = none
  empty : p.at? s = none
  pawn : p.at? last.target = some ⟨.pawn, p.sideToMove.other⟩
  rank : s.rank = match p.sideToMove with | .white => 5 | .black => 2

structure Sound (last : Option Move) (p : Position) : Prop where
  king : ∀ side, ∃! s, p.at? s = some ⟨.king, side⟩
  safe : p.inCheck p.sideToMove.other = false
  castling : ∀ side kingSide, p.castling.get side kingSide = true →
    p.at? (kingHome side) = some ⟨.king, side⟩ ∧ p.at? (rookHome side kingSide) = some ⟨.rook, side⟩
  passed : ∀ s, p.enPassant = some s → ∃ m, last = some m ∧ p.JustPassed m s
  pawns : ∀ s side, p.at? s = some ⟨.pawn, side⟩ → s.rank ≠ 0 ∧ s.rank ≠ 7
  few : ∀ side, p.count (fun piece => piece.side = side) ≤ 16
  fewPawns : ∀ side, p.count (fun piece => piece = ⟨.pawn, side⟩) ≤ 8

variable {p : Position} {last : Option Move} {side : Side} {s t : Square} {m : Move}
  {kind : PieceKind} {piece : Piece}

theorem kingSquare?_eq_some_iff (hking : ∃! k, p.at? k = some ⟨.king, side⟩) :
    p.kingSquare? side = some s ↔ p.at? s = some ⟨.king, side⟩ := by
  obtain ⟨k, hk, hunique⟩ := hking
  unfold kingSquare?
  constructor
  · intro h
    have hs := List.find?_some h
    rwa [beq_iff_eq] at hs
  · intro hs
    cases h : Square.all.find? fun s => p.at? s == some ⟨.king, side⟩ with
    | none =>
      have hnone := List.find?_eq_none.mp h s (Square.mem_all s)
      rw [beq_iff_eq] at hnone
      exact absurd hs hnone
    | some t =>
      have ht := List.find?_some h
      rw [beq_iff_eq] at ht
      rw [hunique t ht, hunique s hs]

theorem inCheck_iff (hking : ∃! k, p.at? k = some ⟨.king, side⟩) :
    p.inCheck side = true ↔
      ∃ k, p.at? k = some ⟨.king, side⟩ ∧ Attacked p.at? side.other k := by
  unfold inCheck
  rw [Option.any_eq_true]
  constructor
  · rintro ⟨k, hk, hattacked⟩
    exact ⟨k, (kingSquare?_eq_some_iff hking).mp hk, isAttacked_iff.mp hattacked⟩
  · rintro ⟨k, hk, hattacked⟩
    exact ⟨k, (kingSquare?_eq_some_iff hking).mpr hk, isAttacked_iff.mpr hattacked⟩

theorem arriving_of_ne_pawn (h : piece.kind ≠ .pawn) : arriving piece m = piece := by
  unfold arriving
  cases m.promotion with
  | none => rfl
  | some kind => exact if_neg h

theorem arriving_side : (arriving piece m).side = piece.side := by
  unfold arriving
  cases m.promotion with
  | none => rfl
  | some kind =>
    dsimp only
    split <;> rfl

/-- Only a pawn arrives as a pawn. -/
theorem eq_pawn_of_arriving (h : (arriving piece m).kind = .pawn) : piece.kind = .pawn := by
  by_contra hne
  rw [arriving_of_ne_pawn hne] at h
  exact hne h

namespace Sound

theorem not_attacked (h : p.Sound last) (hk : p.at? s = some ⟨.king, p.sideToMove.other⟩) :
    ¬ Attacked p.at? p.sideToMove s := by
  intro hattacked
  have hcheck := (inCheck_iff (h.king p.sideToMove.other)).mpr
    ⟨s, hk, by rwa [Side.other_other]⟩
  rw [h.safe] at hcheck
  cases hcheck

theorem passed_empty (h : p.Sound last) (hs : p.enPassant = some s) : p.at? s = none := by
  obtain ⟨m, -, hpassed⟩ := h.passed s hs
  exact hpassed.empty

theorem inside_landing (side : Side) (kingSide : Bool) :
    Inside side kingSide ⟨(way kingSide).landing, side.homeRank⟩ := by
  refine (inside_iff kingSide).mpr ⟨rfl, ?_⟩
  change (way kingSide).landing ∈ (way kingSide).empty
  cases kingSide <;> decide

theorem inside_crossing (side : Side) (kingSide : Bool) :
    Inside side kingSide ⟨(way kingSide).crossing, side.homeRank⟩ := by
  refine (inside_iff kingSide).mpr ⟨rfl, ?_⟩
  change (way kingSide).crossing ∈ (way kingSide).empty
  cases kingSide <;> decide

/-- A generated move ends neither on a king nor on a piece of its own side. -/
theorem target_cases (h : p.Sound last) (hm : Moves p.at? (p.past p.sideToMove) p.sideToMove m) :
    p.at? m.target = none ∨
      ∃ kind, kind ≠ .king ∧ p.at? m.target = some ⟨kind, p.sideToMove.other⟩ := by
  have htaken {kind taken : PieceKind} (hat : p.at? m.source = some ⟨kind, p.sideToMove⟩)
      (hattacks : Attacks p.at? ⟨kind, p.sideToMove⟩ m.source m.target)
      (htarget : p.at? m.target = some ⟨taken, p.sideToMove.other⟩) : taken ≠ .king := by
    rintro rfl
    exact h.not_attacked htarget ⟨m.source, kind, hat, hattacks⟩
  cases hm with
  | pawnStep _ _ hempty _ => exact .inl hempty
  | pawnDouble _ _ _ _ _ hempty _ => exact .inl hempty
  | pawnTakes hat hattacks htarget _ => exact .inr ⟨_, htaken hat hattacks htarget, htarget⟩
  | pawnPasses _ _ hpassed _ => exact .inl (h.passed_empty hpassed)
  | piece _ hat hattacks hown _ =>
    cases htarget : p.at? m.target with
    | none => exact .inl rfl
    | some piece =>
      obtain ⟨taken, owner⟩ := piece
      have howner : owner = p.sideToMove.other := by
        refine Side.eq_other_of_ne fun he => hown taken ?_
        rw [htarget, he]
      subst howner
      exact .inr ⟨taken, htaken hat hattacks htarget, rfl⟩
  | castles kingSide hhome _ _ _ hempty _ hland _ _ _ _ =>
    rw [hhome] at hland
    refine .inl (hempty _ ?_)
    rw [(away_landing_iff _ kingSide).mp hland]
    exact inside_landing _ kingSide

theorem target_ne_king (h : p.Sound last) (hm : Moves p.at? (p.past p.sideToMove) p.sideToMove m) :
    p.at? m.target ≠ some ⟨.king, side⟩ := by
  intro hking
  rcases h.target_cases hm with hnone | ⟨taken, hne, htarget⟩
  · rw [hking] at hnone
    cases hnone
  · rw [hking] at htarget
    exact hne (Piece.of_some_eq htarget).1.symm

/-- The pawn that is taken in passing is where the board says. -/
theorem victim (h : p.Sound last) (ht : p.enPassant = some t)
    (hrank : (t.rank.val : Int) = s.rank.val + p.sideToMove.forward) :
    p.at? ⟨t.file, s.rank⟩ = some ⟨.pawn, p.sideToMove.other⟩ := by
  obtain ⟨m, -, hpassed⟩ := h.passed t ht
  have hbeyond := hpassed.beyond
  rw [Side.forward_other] at hbeyond
  have htarget : m.target = ⟨t.file, s.rank⟩ := by
    unfold Square.Away at hbeyond
    refine Square.ext_iff.mpr ⟨Fin.ext ?_, Fin.ext ?_⟩ <;> dsimp only <;> omega
  rw [← htarget]
  exact hpassed.pawn

theorem victim_of_attacks (h : p.Sound last) (ht : p.enPassant = some m.target)
    (hattacks : Attacks p.at? ⟨.pawn, p.sideToMove⟩ m.source m.target) :
    p.at? ⟨m.target.file, m.source.rank⟩ = some ⟨.pawn, p.sideToMove.other⟩ :=
  h.victim ht hattacks.pawn.2

/-- A piece that is neither moved nor taken on its square stays there, but for a pawn taken in
passing and the rook that castles. -/
theorem keeps (h : p.Sound last) (hm : Moves p.at? (p.past p.sideToMove) p.sideToMove m)
    (hat : p.at? t = some ⟨kind, side⟩) (ht : t ≠ m.target) (hs : t ≠ m.source) :
    (p.apply m).at? t = some ⟨kind, side⟩ ∨ kind = .pawn ∧ side = p.sideToMove.other ∨
      kind = .rook ∧ side = p.sideToMove ∧ m.source = kingHome side := by
  have houtcome := outcome_apply hm t
  generalize (p.apply m).at? t = outcome at houtcome
  cases houtcome with
  | arrives he _ _ => exact absurd he ht
  | leaves _ he => exact absurd he hs
  | stays _ _ => exact .inl hat
  | passed _ _ hpassed _ hattacks hvictim =>
    have hpawn := h.victim_of_attacks hpassed hattacks
    rw [← hvictim, hat] at hpawn
    exact .inr (.inl (Piece.of_some_eq hpawn))
  | rookArrives _ _ _ _ hcastles hcross =>
    rw [hcross, hcastles.2.2.1 _ (inside_crossing _ _)] at hat
    cases hat
  | rookLeaves _ _ _ hhome hcastles hcorner =>
    have hrook := hcastles.1
    rw [← hcorner, hat] at hrook
    obtain ⟨rfl, rfl⟩ := Piece.of_some_eq hrook
    exact .inr (.inr ⟨rfl, rfl, hhome⟩)

theorem keeps_king (h : p.Sound last) (hm : Moves p.at? (p.past p.sideToMove) p.sideToMove m)
    (hat : p.at? t = some ⟨.king, side⟩) (hs : t ≠ m.source) :
    (p.apply m).at? t = some ⟨.king, side⟩ := by
  have ht : t ≠ m.target := by
    rintro rfl
    exact h.target_ne_king hm hat
  rcases h.keeps hm hat ht hs with hkept | ⟨hpawn, -⟩ | ⟨hrook, -⟩
  · exact hkept
  · cases hpawn
  · cases hrook

/-- A king after a move has moved, or has stood where it is. -/
theorem king_of_apply (hm : Moves p.at? (p.past p.sideToMove) p.sideToMove m)
    (hat : (p.apply m).at? t = some ⟨.king, side⟩) :
    t = m.target ∧ side = p.sideToMove ∧ p.at? m.source = some ⟨.king, side⟩ ∨
      t ≠ m.source ∧ p.at? t = some ⟨.king, side⟩ := by
  have houtcome := outcome_apply hm t
  generalize (p.apply m).at? t = outcome at houtcome hat
  cases houtcome with
  | arrives ht hsource hbecomes =>
    obtain ⟨rfl, rfl⟩ := Piece.of_some_eq hat
    rcases hbecomes with ⟨rfl, -⟩ | ⟨-, -, hne⟩
    · exact .inl ⟨ht, rfl, hsource⟩
    · exact absurd rfl hne
  | leaves _ _ => cases hat
  | stays _ hs => exact .inr ⟨hs, hat⟩
  | passed _ _ _ _ _ _ => cases hat
  | rookArrives _ _ _ _ _ _ => cases hat
  | rookLeaves _ _ _ _ _ _ => cases hat

theorem king_apply (h : p.Sound last) (hm : Moves p.at? (p.past p.sideToMove) p.sideToMove m)
    (side : Side) : ∃! t, (p.apply m).at? t = some ⟨.king, side⟩ := by
  obtain ⟨k, hk, hunique⟩ := h.king side
  by_cases hs : k = m.source
  · -- The king is the piece that moves, so it is of the side to move.
    subst hs
    obtain ⟨kind, hat⟩ := hm.exists_kind
    have hside : side = p.sideToMove := by
      rw [hk] at hat
      exact (Piece.of_some_eq hat).2
    subst hside
    refine ⟨m.target, ?_, fun t ht => ?_⟩
    · change (p.apply m).at? m.target = some ⟨.king, p.sideToMove⟩
      rw [at?_apply_eq hk, if_pos rfl, arriving_of_ne_pawn (by simp)]
    · rcases king_of_apply hm ht with ⟨he, -⟩ | ⟨hne, hat⟩
      · exact he
      · exact absurd (hunique t hat) hne
  · refine ⟨k, h.keeps_king hm hk hs, fun t ht => ?_⟩
    rcases king_of_apply hm ht with ⟨-, -, hsource⟩ | ⟨-, hat⟩
    · exact absurd (hunique _ hsource).symm hs
    · exact hunique t hat

end Sound
end PocketTerminal.Chess.Position
