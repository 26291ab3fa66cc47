import PocketTerminal.Proofs.Chess.Invariant

/-! # What moves preserve

A legal move leads from a sound position to a sound one. -/
namespace PocketTerminal.Chess.Position

open Rules

variable {p : Position} {last : Option Move} {side : Side} {s t : Square} {m : Move}
  {kind : PieceKind} {piece : Piece} {sort : Piece → Bool}

theorem get_touch_iff {c : Castling} {kingSide : Bool} :
    (c.touch s).get side kingSide = true ↔
      c.get side kingSide = true ∧ s ≠ kingHome side ∧ s ≠ rookHome side kingSide := by
  obtain ⟨file, rank⟩ := s
  unfold Castling.touch
  dsimp only
  split <;> cases side <;> cases kingSide <;>
    simp_all [Castling.get, kingHome, rookHome, Side.homeRank, Square.ext_iff]

theorem get_apply_iff {kingSide : Bool} (hat : p.at? m.source = some piece) :
    (p.apply m).castling.get side kingSide = true ↔ p.castling.get side kingSide = true ∧
      (m.source ≠ kingHome side ∧ m.source ≠ rookHome side kingSide) ∧
        m.target ≠ kingHome side ∧ m.target ≠ rookHome side kingSide := by
  rw [apply_castling hat, get_touch_iff, get_touch_iff, and_assoc]

theorem Sound.castling_apply (h : p.Sound last)
    (hm : Moves p.at? (p.past p.sideToMove) p.sideToMove m) {kingSide : Bool}
    (hset : (p.apply m).castling.get side kingSide = true) :
    (p.apply m).at? (kingHome side) = some ⟨.king, side⟩ ∧
      (p.apply m).at? (rookHome side kingSide) = some ⟨.rook, side⟩ := by
  obtain ⟨kind, hat⟩ := hm.exists_kind
  obtain ⟨hset, ⟨hking, hrook⟩, -, hrookTarget⟩ := (get_apply_iff hat).mp hset
  obtain ⟨hatKing, hatRook⟩ := h.castling side kingSide hset
  refine ⟨h.keeps_king hm hatKing hking.symm, ?_⟩
  rcases h.keeps hm hatRook hrookTarget.symm hrook.symm with hkept | ⟨hpawn, -⟩ | ⟨-, -, hhome⟩
  · exact hkept
  · cases hpawn
  · exact absurd hhome hking

theorem gap_rank_iff (hm : Moves p.at? (p.past side) side m)
    (hat : p.at? m.source = some ⟨.pawn, side⟩) :
    gap m.source.rank m.target.rank = 2 ↔ m.source.Away m.target 0 (2 * side.forward) := by
  have hunit := side.forward_natAbs
  unfold gap
  constructor
  · intro hgap
    rcases (moves_pawn_iff hat).mp hm with (⟨haway, -⟩ | ⟨-, middle, -, -, haway, -⟩) | ⟨hattacks, -⟩
    · unfold Square.Away at haway
      omega
    · exact haway
    · have hrank := hattacks.pawn.2
      omega
  · intro haway
    unfold Square.Away at haway
    omega

theorem passedSquare_eq_some_iff (hm : Moves p.at? (p.past side) side m)
    (hat : p.at? m.source = some ⟨kind, side⟩) :
    passedSquare ⟨kind, side⟩ m = some s ↔ kind = .pawn ∧
      m.source.Away m.target 0 (2 * side.forward) ∧ m.source.Away s 0 side.forward := by
  by_cases hpawn : kind = .pawn
  · subst hpawn
    unfold passedSquare
    simp only [decide_true, Bool.true_and, decide_eq_true_eq, gap_rank_iff hm hat, true_and]
    by_cases hdouble : m.source.Away m.target 0 (2 * side.forward)
    · rw [if_pos hdouble, Option.some.injEq, Square.ext_iff, Fin.ext_iff, Fin.ext_iff]
      have hunit := side.forward_natAbs
      unfold Square.Away at hdouble ⊢
      dsimp only
      omega
    · rw [if_neg hdouble]
      simp [hdouble]
  · unfold passedSquare
    simp [hpawn]

theorem double_step (hm : Moves p.at? (p.past side) side m)
    (hat : p.at? m.source = some ⟨.pawn, side⟩)
    (hdouble : m.source.Away m.target 0 (2 * side.forward)) :
    m.source.rank = side.pawnRank ∧ m.promotion = none ∧
      ∀ middle, m.source.Away middle 0 side.forward → p.at? middle = none := by
  have hunit := side.forward_natAbs
  unfold Square.Away at hdouble
  rcases (moves_pawn_iff hat).mp hm with (⟨haway, -⟩ | ⟨hrank, middle, hmiddle, hempty, -, -, hp⟩) |
    ⟨hattacks, -⟩
  · unfold Square.Away at haway
    omega
  · refine ⟨hrank, hp, fun middle' hmiddle' => ?_⟩
    rwa [hmiddle'.eq hmiddle]
  · have hstep := hattacks.pawn.2
    omega

theorem justPassed_apply (hm : Moves p.at? (p.past p.sideToMove) p.sideToMove m)
    (hs : (p.apply m).enPassant = some s) : (p.apply m).JustPassed m s := by
  obtain ⟨kind, hat⟩ := hm.exists_kind
  rw [apply_enPassant hat, passedSquare_eq_some_iff hm hat] at hs
  obtain ⟨rfl, hdouble, hnear⟩ := hs
  obtain ⟨hrank, hp, hempty⟩ := double_step hm hat hdouble
  have hside : (p.apply m).sideToMove.other = p.sideToMove := by
    rw [apply_sideToMove hat, Side.other_other]
  have hunit := p.sideToMove.forward_natAbs
  have hbeyond := (away_two_iff hnear).mpr hdouble
  constructor
  · rwa [hside]
  · rwa [hside]
  · rw [at?_apply_eq hat, if_neg (hdouble.ne (by omega)), if_pos rfl]
  · rw [at?_apply hm, after_pawn hat (hbeyond.ne (by omega)) (hnear.ne (by omega)).symm,
      hempty s hnear, ite_self]
  · rw [hside, at?_apply_eq hat, if_pos rfl]
    unfold arriving
    rw [hp]
  · rw [apply_sideToMove hat]
    have hr := hnear.2
    rw [hrank] at hr
    cases hmover : p.sideToMove with
    | white =>
      have hstart : (Side.white.pawnRank.val : Int) = 1 := rfl
      rw [hmover] at hr
      change s.rank = 2
      refine Fin.ext ?_
      simp only [Side.forward] at hr
      change s.rank.val = 2
      omega
    | black =>
      have hstart : (Side.black.pawnRank.val : Int) = 6 := rfl
      rw [hmover] at hr
      change s.rank = 5
      refine Fin.ext ?_
      simp only [Side.forward] at hr
      change s.rank.val = 5
      omega

theorem forward_of_moves (hm : Moves p.at? (p.past side) side m)
    (hat : p.at? m.source = some ⟨.pawn, side⟩) :
    ∃ (df : Int) (n : Nat), 0 < n ∧ m.source.Away m.target df (n * side.forward) := by
  rcases (moves_pawn_iff hat).mp hm with (⟨haway, -⟩ | ⟨-, middle, -, -, haway, -⟩) | ⟨hattacks, -⟩
  · refine ⟨0, 1, Nat.one_pos, ?_⟩
    rwa [Nat.cast_one, one_mul]
  · exact ⟨0, 2, Nat.two_pos, haway⟩
  · rcases hattacks with haway | haway
    · refine ⟨-1, 1, Nat.one_pos, ?_⟩
      rwa [Nat.cast_one, one_mul]
    · refine ⟨1, 1, Nat.one_pos, ?_⟩
      rwa [Nat.cast_one, one_mul]

theorem Sound.pawns_apply (h : p.Sound last)
    (hm : Moves p.at? (p.past p.sideToMove) p.sideToMove m)
    (ht : (p.apply m).at? t = some ⟨.pawn, side⟩) : t.rank ≠ 0 ∧ t.rank ≠ 7 := by
  have houtcome := outcome_apply hm t
  generalize (p.apply m).at? t = outcome at houtcome ht
  cases houtcome with
  | arrives he hat hbecomes =>
    obtain ⟨rfl, rfl⟩ := Piece.of_some_eq ht
    rcases hbecomes with ⟨rfl, hlast⟩ | ⟨-, hne, -⟩
    · obtain ⟨df, n, hn, haway⟩ := forward_of_moves hm hat
      have hfirst := forward_ne_homeRank hn haway
      have hlast := hlast rfl
      rw [he]
      generalize p.sideToMove = mover at hfirst hlast
      cases mover
      · exact ⟨hfirst, hlast⟩
      · exact ⟨hlast, hfirst⟩
    · exact absurd rfl hne
  | leaves _ _ => cases ht
  | stays _ _ => exact h.pawns t side ht
  | passed _ _ _ _ _ _ => cases ht
  | rookArrives _ _ _ _ _ _ => cases ht
  | rookLeaves _ _ _ _ _ _ => cases ht

theorem count_takePassed_le : (p.takePassed piece m).count sort ≤ p.count sort := by
  unfold takePassed
  split
  · have hput := count_put p ⟨m.target.file, m.source.rank⟩ none sort
    simp only [Option.any_none, Bool.false_eq_true, if_false] at hput
    omega
  · exact le_refl _

theorem count_relocate_le (s t : Square) :
    ((p.put s none).put t (p.at? s)).count sort ≤ p.count sort := by
  have hleave := count_put p s none sort
  have harrive := count_put (p.put s none) t (p.at? s) sort
  simp only [Option.any_none, Bool.false_eq_true, if_false] at hleave
  omega

theorem count_moveRook_le : (p.moveRook piece m).count sort ≤ p.count sort := by
  unfold moveRook
  split
  · dsimp only
    split
    · exact count_relocate_le _ _
    · exact count_relocate_le _ _
  · exact le_refl _

/-- The square a pawn goes to straight ahead is not one just passed over: the pawn that passed
would be in its way. -/
theorem Sound.ne_passed (h : p.Sound last)
    (hm : Moves p.at? (p.past p.sideToMove) p.sideToMove m)
    (hat : p.at? m.source = some ⟨.pawn, p.sideToMove⟩) (hfile : m.source.file = m.target.file) :
    p.enPassant ≠ some m.target := by
  intro hpassed
  rcases (moves_pawn_iff hat).mp hm with (⟨haway, -⟩ | ⟨-, middle, hmiddle, hempty, haway, -⟩) |
    ⟨hattacks, -⟩
  · have hvictim := h.victim hpassed haway.2
    rw [← hfile, hat] at hvictim
    exact Side.other_ne _ (Piece.of_some_eq hvictim).2.symm
  · -- The pawn that passed would stand on the square in the middle, which is empty.
    have hbeyond := (away_two_iff hmiddle).mpr haway
    have hvictim := h.victim hpassed hbeyond.2
    rw [← hbeyond.file_eq, hempty] at hvictim
    cases hvictim
  · exact hattacks.pawn.1 hfile

/-- Neither taking in passing nor moving the rook touches the piece that moves. -/
theorem Sound.at?_source (h : p.Sound last)
    (hm : Moves p.at? (p.past p.sideToMove) p.sideToMove m)
    (hat : p.at? m.source = some ⟨kind, p.sideToMove⟩) :
    ((p.takePassed ⟨kind, p.sideToMove⟩ m).moveRook ⟨kind, p.sideToMove⟩ m).at? m.source =
      some ⟨kind, p.sideToMove⟩ := by
  by_cases hpawn : kind = .pawn
  · subst hpawn
    rw [moveRook_of_ne_king (by simp), at?_takePassed, if_neg, hat]
    rintro ⟨-, hpassed, -, hvictim⟩
    exact h.ne_passed hm hat (Square.ext_iff.mp hvictim).1 hpassed
  rw [takePassed_of_ne_pawn hpawn]
  by_cases hking : kind = .king
  · subst hking
    by_cases hcastles : ∃ kingSide, m.source = kingHome p.sideToMove ∧
        p.Castles p.sideToMove kingSide m
    · obtain ⟨kingSide, hhome, hcastles⟩ := hcastles
      have hcrossing : m.source ≠ ⟨(way kingSide).crossing, p.sideToMove.homeRank⟩ := by
        rw [hhome, kingHome]
        cases kingSide <;> simp [way]
      have hcorner : m.source ≠ rookHome p.sideToMove kingSide := by
        rw [hhome, kingHome, rookHome]
        cases kingSide <;> simp
      rw [at?_moveRook_of_castles rfl hhome hcastles, if_neg hcrossing, if_neg hcorner, hat]
    · rw [moveRook_of_not_castles hm hat fun kingSide hc => hcastles ⟨kingSide, hc⟩, hat]
  · rw [moveRook_of_ne_king hking, hat]

theorem Sound.count_apply_le (h : p.Sound last)
    (hm : Moves p.at? (p.past p.sideToMove) p.sideToMove m)
    (hat : p.at? m.source = some ⟨kind, p.sideToMove⟩)
    (hsort : sort (arriving ⟨kind, p.sideToMove⟩ m) = true → sort ⟨kind, p.sideToMove⟩ = true) :
    (p.apply m).count sort ≤ p.count sort := by
  have hsource := h.at?_source hm hat
  have hprepared : ((p.takePassed ⟨kind, p.sideToMove⟩ m).moveRook ⟨kind, p.sideToMove⟩ m).count
      sort ≤ p.count sort := count_moveRook_le.trans count_takePassed_le
  have hcount : (p.apply m).count sort =
      ((((p.takePassed ⟨kind, p.sideToMove⟩ m).moveRook ⟨kind, p.sideToMove⟩ m).put m.source
        none).put m.target (some (arriving ⟨kind, p.sideToMove⟩ m))).count sort := by
    unfold apply
    rw [hat]
    rfl
  rw [hcount]
  generalize (p.takePassed ⟨kind, p.sideToMove⟩ m).moveRook ⟨kind, p.sideToMove⟩ m = q
    at hsource hprepared
  have hleave := count_put q m.source none sort
  have harrive := count_put (q.put m.source none) m.target
    (some (arriving ⟨kind, p.sideToMove⟩ m)) sort
  rw [hsource] at hleave
  simp only [Option.any_none, Option.any_some, Bool.false_eq_true, if_false] at hleave harrive
  by_cases ha : sort (arriving ⟨kind, p.sideToMove⟩ m) = true
  · rw [if_pos (hsort ha)] at hleave
    rw [if_pos ha] at harrive
    omega
  · rw [if_neg ha] at harrive
    omega

theorem Sound.apply (h : p.Sound last) (hm : Moves p.at? (p.past p.sideToMove) p.sideToMove m)
    (hsafe : (p.apply m).inCheck p.sideToMove = false) : (p.apply m).Sound (some m) := by
  obtain ⟨kind, hat⟩ := hm.exists_kind
  constructor
  · exact h.king_apply hm
  · rwa [apply_sideToMove hat, Side.other_other]
  · intro side kingSide hset
    exact h.castling_apply hm hset
  · intro s hs
    exact ⟨m, rfl, justPassed_apply hm hs⟩
  · intro s side hs
    exact h.pawns_apply hm hs
  · intro side
    refine (h.count_apply_le hm hat fun hsort => ?_).trans (h.few side)
    rwa [arriving_side] at hsort
  · intro side
    refine (h.count_apply_le hm hat fun hsort => ?_).trans (h.fewPawns side)
    rw [decide_eq_true_eq] at hsort
    have hpawn : kind = .pawn := eq_pawn_of_arriving (by rw [hsort])
    have hside : side = p.sideToMove := by
      have harriving : (arriving ⟨kind, p.sideToMove⟩ m).side = p.sideToMove := arriving_side
      rw [hsort] at harriving
      exact harriving
    rw [decide_eq_true_eq, hpawn, hside]

end PocketTerminal.Chess.Position
