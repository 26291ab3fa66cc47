import PocketTerminal.Proofs.Chess.Distinct

/-! # What moves do

A generated move makes of the board what the rules say. Besides its source and target it
changes one square when it takes in passing, and two when it castles. -/
namespace PocketTerminal.Chess

open Rules

theorem Rules.Moves.exists_kind {b : Board} {past : Past} {side : Side} {m : Move}
    (h : Moves b past side m) : ∃ kind, b m.source = some ⟨kind, side⟩ := by
  cases h <;> exact ⟨_, ‹_›⟩

theorem Rules.Attacks.pawn {b : Board} {side : Side} {s t : Square}
    (h : Attacks b ⟨.pawn, side⟩ s t) :
    s.file ≠ t.file ∧ (t.rank.val : Int) = s.rank.val + side.forward := by
  rw [ne_eq, Fin.ext_iff]
  rcases h with haway | haway
  · refine ⟨?_, haway.2⟩
    have hfile := haway.1
    omega
  · refine ⟨?_, haway.2⟩
    have hfile := haway.1
    omega

theorem toward_cases (kingSide : Bool) : toward kingSide = 1 ∨ toward kingSide = -1 := by
  cases kingSide
  · exact .inr rfl
  · exact .inl rfl

namespace Position

variable {p : Position} {side : Side} {s t : Square} {m : Move} {piece : Piece}

theorem apply_sideToMove (hat : p.at? m.source = some piece) :
    (p.apply m).sideToMove = piece.side.other := by
  simp only [apply, hat]

theorem apply_enPassant (hat : p.at? m.source = some piece) :
    (p.apply m).enPassant = passedSquare piece m := by
  simp only [apply, hat]

theorem apply_castling (hat : p.at? m.source = some piece) :
    (p.apply m).castling = (p.castling.touch m.source).touch m.target := by
  simp only [apply, hat]

theorem at?_apply_eq (hat : p.at? m.source = some piece) :
    (p.apply m).at? t =
      if t = m.target then some (arriving piece m)
      else if t = m.source then none
      else ((p.takePassed piece m).moveRook piece m).at? t := by
  have hboard : (p.apply m).at? t =
      ((((p.takePassed piece m).moveRook piece m).put m.source none).put m.target
        (some (arriving piece m))).at? t := by
    unfold apply
    rw [hat]
    rfl
  rw [hboard, at?_put, at?_put]

theorem takePassed_of_ne_pawn (h : piece.kind ≠ .pawn) : p.takePassed piece m = p := by
  unfold takePassed
  rw [if_neg]
  simp [h]

theorem moveRook_of_ne_king (h : piece.kind ≠ .king) : p.moveRook piece m = p := by
  unfold moveRook
  rw [if_neg]
  simp [h]

theorem at?_takePassed :
    (p.takePassed piece m).at? t =
      if piece.kind = .pawn ∧ p.enPassant = some m.target ∧ p.at? m.target = none ∧
        t = ⟨m.target.file, m.source.rank⟩ then none
      else p.at? t := by
  unfold takePassed
  by_cases h : (piece.kind = .pawn && p.enPassant = some m.target && (p.at? m.target).isNone) = true
  · rw [if_pos h, at?_put]
    simp only [Bool.and_eq_true, decide_eq_true_eq, Option.isNone_iff_eq_none] at h
    simp [h]
  · rw [if_neg h, if_neg]
    simp only [Bool.and_eq_true, decide_eq_true_eq, Option.isNone_iff_eq_none, not_and] at h
    rintro ⟨hpawn, hpassed, hempty, -⟩
    exact h ⟨hpawn, hpassed⟩ hempty

/-- A pawn that goes to an empty square of another file takes in passing. -/
theorem passes_of_moves (hm : Moves p.at? (p.past side) side m) (hat : p.at? m.source = some ⟨.pawn, side⟩)
    (hfile : m.source.file ≠ m.target.file) (hempty : p.at? m.target = none) :
    p.enPassant = some m.target := by
  rcases (moves_pawn_iff hat).mp hm with (⟨haway, -⟩ | ⟨-, middle, -, -, haway, -⟩) |
    ⟨-, ⟨kind, htake⟩ | hpassed, -⟩
  · exact absurd haway.file_eq hfile
  · exact absurd haway.file_eq hfile
  · rw [hempty] at htake
    cases htake
  · exact hpassed

theorem arriving_eq (hm : Moves p.at? (p.past side) side m) (hat : p.at? m.source = some piece) :
    arriving piece m = m.promotion.elim piece fun kind => ⟨kind, piece.side⟩ := by
  unfold arriving
  cases hp : m.promotion with
  | none => rfl
  | some kind =>
    dsimp only [Option.elim_some]
    rw [if_pos]
    cases hm with
    | piece _ _ _ _ hnone =>
      rw [hp] at hnone
      cases hnone
    | castles _ _ _ _ _ _ _ _ _ _ _ hnone =>
      rw [hp] at hnone
      cases hnone
    | pawnStep hpawn _ _ _ =>
      rw [hat] at hpawn
      cases hpawn
      rfl
    | pawnDouble hpawn _ _ _ _ _ _ =>
      rw [hat] at hpawn
      cases hpawn
      rfl
    | pawnTakes hpawn _ _ _ =>
      rw [hat] at hpawn
      cases hpawn
      rfl
    | pawnPasses hpawn _ _ _ =>
      rw [hat] at hpawn
      cases hpawn
      rfl

/-- A king that goes two files castles. -/
theorem king_gap_iff (hm : Moves p.at? (p.past side) side m)
    (hat : p.at? m.source = some ⟨.king, side⟩) :
    gap m.source.file m.target.file = 2 ↔
      ∃ kingSide, m.source = kingHome side ∧ p.Castles side kingSide m := by
  unfold gap
  rcases (moves_piece_iff (by decide) hat).mp hm with ⟨⟨d, hd, haway⟩, -⟩ |
    ⟨-, hhome, -, kingSide, hcastles⟩
  · obtain ⟨hd1, -, -⟩ := unit_of_queen hd
    unfold Square.Away at haway
    constructor
    · intro hgap
      omega
    · rintro ⟨kingSide, -, -, -, -, crossing, -, hland, -⟩
      unfold Square.Away at hland
      have := toward_cases kingSide
      omega
  · refine iff_of_true ?_ ⟨kingSide, hhome, hcastles⟩
    obtain ⟨-, -, -, crossing, -, hland, -⟩ := hcastles
    unfold Square.Away at hland
    have := toward_cases kingSide
    omega

theorem at?_moveRook_of_castles {kingSide : Bool} (hking : piece.kind = .king)
    (hhome : m.source = kingHome side) (hcastles : p.Castles side kingSide m) :
    (p.moveRook piece m).at? t =
      if t = ⟨(way kingSide).crossing, side.homeRank⟩ then some ⟨.rook, side⟩
      else if t = rookHome side kingSide then none
      else p.at? t := by
  obtain ⟨hrook, -, -, crossing, hcross, hland, -⟩ := hcastles
  rw [hhome] at hland
  have htarget := (away_landing_iff side kingSide).mp hland
  have hgap : gap m.source.file m.target.file = 2 := by
    rw [hhome, htarget]
    cases kingSide <;> rfl
  unfold moveRook
  rw [if_pos (by simp [hking, hgap]), htarget, hhome]
  cases kingSide <;> simp only [way, kingHome, Bool.false_eq_true, if_true, if_false] <;>
    rw [at?_put, at?_put] <;> simp only [rookHome, Bool.false_eq_true, if_true, if_false] at hrook ⊢ <;>
    simp [hrook]

theorem moveRook_of_not_castles (hm : Moves p.at? (p.past side) side m)
    (hat : p.at? m.source = some ⟨.king, side⟩)
    (hnone : ∀ kingSide, ¬ (m.source = kingHome side ∧ p.Castles side kingSide m)) :
    p.moveRook ⟨.king, side⟩ m = p := by
  unfold moveRook
  rw [if_neg]
  rw [Bool.and_eq_true, decide_eq_true_eq, decide_eq_true_eq, king_gap_iff hm hat]
  rintro ⟨-, kingSide, hcastles⟩
  exact hnone kingSide hcastles

theorem after_eq {b : Board} (hat : b m.source = some piece) (ht : t ≠ m.target) (hs : t ≠ m.source) :
    after b m t =
      if piece.kind = .pawn ∧ m.source.file ≠ m.target.file ∧ b m.target = none ∧
        t = ⟨m.target.file, m.source.rank⟩ then none
      else if piece.kind = .king ∧ m.source.Away m.target 2 0 ∧ t = ⟨5, m.source.rank⟩ then
        b ⟨7, m.source.rank⟩
      else if piece.kind = .king ∧ m.source.Away m.target 2 0 ∧ t = ⟨7, m.source.rank⟩ then none
      else if piece.kind = .king ∧ m.source.Away m.target (-2) 0 ∧ t = ⟨3, m.source.rank⟩ then
        b ⟨0, m.source.rank⟩
      else if piece.kind = .king ∧ m.source.Away m.target (-2) 0 ∧ t = ⟨0, m.source.rank⟩ then none
      else b t := by
  unfold after
  rw [hat]
  dsimp only
  rw [if_neg ht, if_neg hs]

theorem after_pawn {b : Board} (hat : b m.source = some ⟨.pawn, side⟩) (ht : t ≠ m.target)
    (hs : t ≠ m.source) :
    after b m t = if m.source.file ≠ m.target.file ∧ b m.target = none ∧
        t = ⟨m.target.file, m.source.rank⟩ then none else b t := by
  rw [after_eq hat ht hs]
  simp only [true_and, reduceCtorEq, false_and, if_false]

theorem after_king {b : Board} (hat : b m.source = some ⟨.king, side⟩) (ht : t ≠ m.target)
    (hs : t ≠ m.source) (hstep : ∀ kingSide, ¬ m.source.Away m.target (2 * toward kingSide) 0) :
    after b m t = b t := by
  have htrue : ¬ m.source.Away m.target 2 0 := hstep true
  have hfalse : ¬ m.source.Away m.target (-2) 0 := hstep false
  rw [after_eq hat ht hs]
  simp only [reduceCtorEq, htrue, hfalse, false_and, and_false, if_false]

theorem after_castles {b : Board} {kingSide : Bool} (hat : b m.source = some ⟨.king, side⟩)
    (ht : t ≠ m.target) (hs : t ≠ m.source) (hhome : m.source = kingHome side)
    (hland : m.source.Away m.target (2 * toward kingSide) 0) :
    after b m t =
      if t = ⟨(way kingSide).crossing, side.homeRank⟩ then b (rookHome side kingSide)
      else if t = rookHome side kingSide then none else b t := by
  rw [after_eq hat ht hs]
  have hrank : m.source.rank = side.homeRank := by
    rw [hhome]
    rfl
  cases kingSide with
  | true =>
    have hyes : m.source.Away m.target 2 0 := hland
    have hno : ¬ m.source.Away m.target (-2) 0 := by
      unfold Square.Away at hyes ⊢
      omega
    simp only [reduceCtorEq, false_and, if_false, hyes, hno, true_and, hrank]
    rfl
  | false =>
    have hyes : m.source.Away m.target (-2) 0 := hland
    have hno : ¬ m.source.Away m.target 2 0 := by
      unfold Square.Away at hyes ⊢
      omega
    simp only [reduceCtorEq, false_and, and_false, if_false, hyes, hno, true_and, hrank]
    rfl

theorem after_other {b : Board} (hat : b m.source = some piece) (ht : t ≠ m.target)
    (hs : t ≠ m.source) (hpawn : piece.kind ≠ .pawn) (hking : piece.kind ≠ .king) :
    after b m t = b t := by
  rw [after_eq hat ht hs]
  simp only [hpawn, hking, false_and, if_false]

/-- A generated move carried out makes of the board what the rules say. -/
theorem at?_apply (hm : Moves p.at? (p.past side) side m) : (p.apply m).at? = after p.at? m := by
  obtain ⟨kind, hat⟩ := hm.exists_kind
  funext t
  rw [at?_apply_eq hat]
  by_cases ht : t = m.target
  · rw [if_pos ht, arriving_eq hm hat]
    unfold after
    rw [hat]
    dsimp only
    rw [if_pos ht]
  by_cases hs : t = m.source
  · rw [if_neg ht, if_pos hs]
    unfold after
    rw [hat]
    dsimp only
    rw [if_neg ht, if_pos hs]
  rw [if_neg ht, if_neg hs]
  by_cases hpawn : kind = .pawn
  · subst hpawn
    rw [moveRook_of_ne_king (by simp), at?_takePassed, after_pawn hat ht hs]
    refine if_congr ?_ rfl rfl
    constructor
    · rintro ⟨-, -, hempty, hvictim⟩
      refine ⟨fun hfile => hs ?_, hempty, hvictim⟩
      rw [hvictim, ← hfile]
    · rintro ⟨hfile, hempty, hvictim⟩
      exact ⟨rfl, passes_of_moves hm hat hfile hempty, hempty, hvictim⟩
  rw [takePassed_of_ne_pawn hpawn]
  by_cases hking : kind = .king
  · subst hking
    by_cases hcastles : ∃ kingSide, m.source = kingHome side ∧ p.Castles side kingSide m
    · obtain ⟨kingSide, hhome, hcastles⟩ := hcastles
      obtain ⟨hrook, -, -, crossing, -, hland, -⟩ := id hcastles
      rw [at?_moveRook_of_castles rfl hhome hcastles, after_castles hat ht hs hhome hland, hrook]
    · have hgap := mt (king_gap_iff hm hat).mp hcastles
      rw [moveRook_of_not_castles hm hat fun kingSide h => hcastles ⟨kingSide, h⟩]
      refine (after_king hat ht hs fun kingSide hland => hgap ?_).symm
      have := toward_cases kingSide
      unfold Square.Away at hland
      unfold gap
      omega
  · rw [moveRook_of_ne_king hking, after_other hat ht hs hpawn hking]

end Position
end PocketTerminal.Chess
