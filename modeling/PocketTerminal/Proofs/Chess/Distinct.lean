import PocketTerminal.Proofs.Chess.Generation

/-! # Every move once

No move is listed twice: moves from different squares differ in their source, those of one
piece in different directions in their target, and those in one direction in how far they go. -/
namespace PocketTerminal.Chess

open Rules

variable {p : Position} {side : Side} {s t : Square} {m : Move} {d e : Int × Int}

theorem unit_eq {x y : Int} {n k : Nat} (hx : x.natAbs ≤ 1) (hy : y.natAbs ≤ 1) (hn : 0 < n)
    (hk : 0 < k) (h : (n : Int) * x = k * y) : x = y := by
  have hx' : x = -1 ∨ x = 0 ∨ x = 1 := by omega
  have hy' : y = -1 ∨ y = 0 ∨ y = 1 := by omega
  rcases hx' with rfl | rfl | rfl <;> rcases hy' with rfl | rfl | rfl <;> omega

/-- Only one direction leads along a line from one square to another. -/
theorem direction_eq (hd : Straight d ∨ Diagonal d) (he : Straight e ∨ Diagonal e) {n k : Nat}
    (hn : 0 < n) (hk : 0 < k) (h : s.Away t (n * d.1) (n * d.2)) (h' : s.Away t (k * e.1) (k * e.2)) :
    d = e := by
  obtain ⟨hd1, hd2, -⟩ := unit_of_queen hd
  obtain ⟨he1, he2, -⟩ := unit_of_queen he
  unfold Square.Away at h h'
  exact Prod.ext (unit_eq hd1 he1 hn hk (by omega)) (unit_eq hd2 he2 hn hk (by omega))

theorem sees_empty_iff {ray : List Square} : Sees (fun _ => none) ray t ↔ t ∈ ray := by
  induction ray with
  | nil => simp [Sees]
  | cons a rest ih => simp [Sees, ih]

theorem rayFrom_nodup (hd : Straight d ∨ Diagonal d) (k : Nat) (s : Square) :
    (Square.rayFrom d k s).Nodup := by
  induction k generalizing s with
  | zero => exact List.nodup_nil
  | succ k ih =>
    unfold Square.rayFrom
    cases s.offset d with
    | none => exact List.nodup_nil
    | some u =>
      refine List.nodup_cons.mpr ⟨fun hu => ?_, ih u⟩
      obtain ⟨n, hn, -, haway, -⟩ := sees_rayFrom_iff.mp (sees_empty_iff.mpr hu)
      obtain ⟨-, -, hne⟩ := unit_of_queen hd
      have hn' : (n : Int) ≠ 0 := by omega
      unfold Square.Away at haway
      rcases hne with hne | hne
      · have := mul_ne_zero hn' hne
        omega
      · have := mul_ne_zero hn' hne
        omega

theorem reachable_sublist (p : Position) (side : Side) (ray : List Square) :
    (p.reachable side ray).Sublist ray := by
  induction ray with
  | nil => exact List.Sublist.refl []
  | cons a rest ih =>
    unfold Position.reachable
    split
    · exact ih.cons_cons a
    · split
      · exact List.nil_sublist _
      · exact List.Sublist.cons_cons a (List.nil_sublist rest)

namespace Position

theorem slides_nodup (hd : Straight d ∨ Diagonal d) : (p.slides side s d).Nodup := by
  refine List.Nodup.map (fun a b hab => ?_) ((rayFrom_nodup hd 7 s).sublist (reachable_sublist ..))
  exact (Move.eq_iff.mp hab).2.1

theorem flatMap_slides_nodup {rays : List (Int × Int)} (hrays : rays.Nodup)
    (hqueen : ∀ d ∈ rays, Straight d ∨ Diagonal d) : (rays.flatMap (p.slides side s)).Nodup := by
  refine List.nodup_flatMap.mpr ⟨fun d hd => slides_nodup (hqueen d hd), ?_⟩
  refine hrays.pairwise_of_forall_ne fun d hd e he hne => ?_
  refine List.disjoint_left.mpr fun m hm hm' => hne ?_
  obtain ⟨-, ⟨n, hn, haway, -⟩, -⟩ := (mem_slides_iff (hqueen d hd)).mp hm
  obtain ⟨-, ⟨k, hk, haway', -⟩, -⟩ := (mem_slides_iff (hqueen e he)).mp hm'
  exact direction_eq (hqueen d hd) (hqueen e he) hn hk haway haway'

theorem stepMove_nodup : (p.stepMove side s d).Nodup := by
  unfold stepMove
  split
  · exact List.nodup_nil
  · split
    · exact List.nodup_singleton _
    · exact List.nodup_nil

theorem flatMap_stepMove_nodup {steps : List (Int × Int)} (hsteps : steps.Nodup) :
    (steps.flatMap (p.stepMove side s)).Nodup := by
  refine List.nodup_flatMap.mpr ⟨fun d _ => stepMove_nodup, hsteps.imp fun {d e} hne => ?_⟩
  refine List.disjoint_left.mpr fun m hm hm' => hne ?_
  obtain ⟨-, haway, -⟩ := mem_stepMove_iff.mp hm
  obtain ⟨-, haway', -⟩ := mem_stepMove_iff.mp hm'
  unfold Square.Away at haway haway'
  exact Prod.ext (by omega) (by omega)

theorem pawnMoves_nodup (s t : Square) : (pawnMoves s t).Nodup := by
  unfold pawnMoves
  split
  · refine List.Nodup.map (fun a b hab => ?_) (by decide)
    exact Option.some.inj (Move.eq_iff.mp hab).2.2
  · exact List.nodup_singleton _

theorem target_of_mem_pawnMoves (h : m ∈ pawnMoves s t) : m.target = t := by
  unfold pawnMoves at h
  split at h
  · obtain ⟨kind, -, rfl⟩ := List.mem_map.mp h
    rfl
  · rw [List.mem_singleton.mp h]

theorem pawnSteps_nodup : (p.pawnSteps side s).Nodup := by
  unfold pawnSteps
  split
  · exact List.nodup_nil
  · next one hone =>
    have hone := Square.offset_eq_some_iff.mp hone
    split
    · exact List.nodup_nil
    · refine List.nodup_append'.mpr ⟨pawnMoves_nodup s one, ?_, ?_⟩
      · split
        · split
          · split
            · exact List.nodup_nil
            · exact List.nodup_singleton _
          · exact List.nodup_nil
        · exact List.nodup_nil
      · refine List.disjoint_left.mpr fun m hm hm' => ?_
        have htarget := target_of_mem_pawnMoves hm
        split at hm'
        · split at hm'
          · next two htwo =>
            have htwo := Square.offset_eq_some_iff.mp htwo
            split at hm'
            · cases hm'
            · rw [List.mem_singleton.mp hm'] at htarget
              dsimp only at htarget
              rw [htarget] at htwo
              have := side.forward_natAbs
              unfold Square.Away at htwo
              dsimp only at htwo
              omega
          · cases hm'
        · cases hm'

theorem pawnCaptures_nodup (df : Int) : (p.pawnCaptures side s df).Nodup := by
  unfold pawnCaptures
  split
  · exact List.nodup_nil
  · split
    · exact pawnMoves_nodup ..
    · exact List.nodup_nil

theorem file_of_mem_pawnSteps (h : m ∈ p.pawnSteps side s) : m.target.file = m.source.file := by
  obtain ⟨-, ⟨haway, -⟩ | ⟨-, middle, -, -, haway, -⟩⟩ := mem_pawnSteps_iff.mp h
  · unfold Square.Away at haway
    exact Fin.ext (by omega)
  · unfold Square.Away at haway
    exact Fin.ext (by omega)

theorem castlingMoves_nodup : (p.castlingMoves side s).Nodup := by
  unfold castlingMoves
  split
  · refine List.Nodup.sublist (List.Sublist.map _ List.filter_sublist) ?_
    have hways : castlingWays.map (fun w => (⟨s, ⟨w.landing, side.homeRank⟩, none⟩ : Move)) =
        [⟨s, ⟨6, side.homeRank⟩, none⟩, ⟨s, ⟨2, side.homeRank⟩, none⟩] := rfl
    rw [hways]
    simp
  · exact List.nodup_nil

theorem movesOf_nodup (piece : Piece) : (p.movesOf piece s).Nodup := by
  unfold movesOf
  dsimp only
  split
  · refine List.nodup_append'.mpr ⟨List.nodup_append'.mpr ⟨pawnSteps_nodup, pawnCaptures_nodup _, ?_⟩,
      pawnCaptures_nodup _, ?_⟩
    · refine List.disjoint_left.mpr fun m hm hm' => ?_
      have hfile := file_of_mem_pawnSteps hm
      obtain ⟨-, haway, -⟩ := mem_pawnCaptures_iff.mp hm'
      unfold Square.Away at haway
      rw [hfile] at haway
      omega
    · refine List.disjoint_left.mpr fun m hm hm' => ?_
      obtain ⟨-, haway', -⟩ := mem_pawnCaptures_iff.mp hm'
      unfold Square.Away at haway'
      rcases List.mem_append.mp hm with hm | hm
      · rw [file_of_mem_pawnSteps hm] at haway'
        omega
      · obtain ⟨-, haway, -⟩ := mem_pawnCaptures_iff.mp hm
        unfold Square.Away at haway
        omega
  · exact flatMap_stepMove_nodup (by decide)
  · exact flatMap_slides_nodup (by decide) fun d hd => .inr (mem_bishopRays_iff.mp hd)
  · exact flatMap_slides_nodup (by decide) fun d hd => .inl (mem_rookRays_iff.mp hd)
  · exact flatMap_slides_nodup (by decide) fun d hd => mem_allRays_iff.mp hd
  · refine List.nodup_append'.mpr ⟨flatMap_stepMove_nodup (by decide), castlingMoves_nodup, ?_⟩
    refine List.disjoint_left.mpr fun m hm hm' => ?_
    obtain ⟨-, ⟨d, hd, haway⟩, -⟩ := (mem_flatMap_stepMove_iff fun d => mem_allRays_iff).mp hm
    obtain ⟨-, -, -, kingSide, -, -, -, crossing, -, hland, -⟩ := mem_castlingMoves_iff.mp hm'
    obtain ⟨hd1, -, -⟩ := unit_of_queen hd
    unfold Square.Away toward at *
    cases kingSide <;> simp only [Bool.false_eq_true, if_true, if_false] at hland <;> omega

theorem source_of_mem_pseudoMovesFrom (h : m ∈ p.pseudoMovesFrom s) : m.source = s := by
  unfold pseudoMovesFrom at h
  split at h
  · next piece hat => exact ((mem_movesOf_iff hat).mp h).1
  · cases h

theorem pseudoMoves_nodup (p : Position) : p.pseudoMoves.Nodup := by
  refine List.nodup_flatMap.mpr ⟨fun s _ => ?_, ?_⟩
  · unfold pseudoMovesFrom
    split
    · exact movesOf_nodup _
    · exact List.nodup_nil
  · refine (Square.nodup_all.filter _).imp fun {s t} hne => ?_
    refine List.disjoint_left.mpr fun m hm hm' => hne ?_
    rw [← source_of_mem_pseudoMovesFrom hm, ← source_of_mem_pseudoMovesFrom hm']

theorem legalMoves_nodup (p : Position) : p.legalMoves.Nodup := p.pseudoMoves_nodup.filter _

end Position
end PocketTerminal.Chess
