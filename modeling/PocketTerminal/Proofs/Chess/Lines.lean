import PocketTerminal.Proofs.Chess.Rules
import Mathlib.Algebra.Order.Ring.Int

/-! # Lines on a board

Walking a ray square by square finds the same pieces as looking along a line with nothing
between, from either end. So the search for attackers, which starts from the square that
is attacked, is exact. -/
namespace PocketTerminal.Chess

open Rules

variable {b : Board} {p : Position} {s t u : Square} {d : Int × Int} {side : Side}

theorem mem_rookRays_iff : d ∈ Position.rookRays ↔ Straight d := by
  obtain ⟨x, y⟩ := d
  simp only [Position.rookRays, List.mem_cons, Prod.mk.injEq, List.not_mem_nil, or_false, Straight]
  omega

theorem mem_bishopRays_iff : d ∈ Position.bishopRays ↔ Diagonal d := by
  obtain ⟨x, y⟩ := d
  simp only [Position.bishopRays, List.mem_cons, Prod.mk.injEq, List.not_mem_nil, or_false, Diagonal]
  omega

theorem mem_knightJumps_iff : d ∈ Position.knightJumps ↔ Jump d := by
  obtain ⟨x, y⟩ := d
  simp only [Position.knightJumps, List.mem_cons, Prod.mk.injEq, List.not_mem_nil, or_false, Jump]
  omega

theorem mem_allRays_iff : d ∈ Position.rookRays ++ Position.bishopRays ↔ Straight d ∨ Diagonal d := by
  rw [List.mem_append, mem_rookRays_iff, mem_bishopRays_iff]

def back (d : Int × Int) : Int × Int := (-d.1, -d.2)

theorem straight_back (h : Straight d) : Straight (back d) := by
  unfold Straight back at *
  omega

theorem diagonal_back (h : Diagonal d) : Diagonal (back d) := by
  unfold Diagonal back at *
  omega

theorem jump_back (h : Jump d) : Jump (back d) := by
  unfold Jump back at *
  omega

/-- A direction of a queen goes by one file or none, and by one rank or none, and by one
at least. -/
theorem unit_of_queen (h : Straight d ∨ Diagonal d) :
    d.1.natAbs ≤ 1 ∧ d.2.natAbs ≤ 1 ∧ (d.1 ≠ 0 ∨ d.2 ≠ 0) := by
  unfold Straight Diagonal at h
  omega

/-- The square is on the ray and nothing stands before it. -/
def Sees (b : Board) : List Square → Square → Prop
  | [], _ => False
  | a :: rest, t => t = a ∨ b a = none ∧ Sees b rest t

theorem mem_reachable_iff {ray : List Square} :
    t ∈ p.reachable side ray ↔ Sees p.at? ray t ∧ ∀ kind, p.at? t ≠ some ⟨kind, side⟩ := by
  induction ray with
  | nil => simp [Position.reachable, Sees]
  | cons a rest ih =>
    unfold Position.reachable Sees
    cases ha : p.at? a with
    | none =>
      simp only [List.mem_cons, ih]
      constructor
      · rintro (rfl | ⟨hsees, hown⟩)
        · exact ⟨.inl rfl, by simp [ha]⟩
        · exact ⟨.inr ⟨trivial, hsees⟩, hown⟩
      · rintro ⟨rfl | ⟨-, hsees⟩, hown⟩
        · exact .inl rfl
        · exact .inr ⟨hsees, hown⟩
    | some piece =>
      obtain ⟨kind, owner⟩ := piece
      simp only [reduceCtorEq, false_and, or_false]
      by_cases howner : owner = side
      · subst howner
        simp only [if_true, List.not_mem_nil, false_iff, not_and]
        rintro rfl hown
        exact hown kind ha
      · simp only [howner, if_false, List.mem_singleton]
        refine ⟨fun he => ⟨he, ?_⟩, And.left⟩
        rintro own hown
        rw [he, ha] at hown
        cases hown
        exact howner rfl

theorem find?_isSome_eq_some_iff {ray : List Square} :
    (ray.find? fun u => (b u).isSome) = some t ↔ Sees b ray t ∧ (b t).isSome = true := by
  induction ray with
  | nil => simp [Sees]
  | cons a rest ih =>
    unfold Sees
    cases ha : b a with
    | none =>
      rw [List.find?_cons_of_neg (by simp [ha]), ih]
      constructor
      · rintro ⟨hsees, hsome⟩
        exact ⟨.inr ⟨rfl, hsees⟩, hsome⟩
      · rintro ⟨rfl | ⟨-, hsees⟩, hsome⟩
        · rw [ha] at hsome
          cases hsome
        · exact ⟨hsees, hsome⟩
    | some piece =>
      rw [List.find?_cons_of_pos (by simp [ha])]
      simp only [Option.some.injEq, reduceCtorEq, false_and, or_false]
      refine ⟨fun he => ⟨he.symm, ?_⟩, fun h => h.1.symm⟩
      rw [← he, ha]
      rfl

/-- Where a coordinate and its sum with some steps are on the board, so is its sum with one. -/
theorem step_on_board {a x : Int} {n : Nat} (hn : 0 < n) (ha : 0 ≤ a ∧ a < 8)
    (h : 0 ≤ a + n * x ∧ a + n * x < 8) : 0 ≤ a + x ∧ a + x < 8 := by
  have hn' : (1 : Int) ≤ n := by omega
  rcases le_total 0 x with hx | hx
  · have := le_mul_of_one_le_left hx hn'
    omega
  · have : (n : Int) * x ≤ x := by
      have := le_mul_of_one_le_left (neg_nonneg.mpr hx) hn'
      rw [mul_neg] at this
      omega
    omega

theorem exists_offset_of_away {n : Nat} (hn : 0 < n) (h : s.Away t (n * d.1) (n * d.2)) :
    ∃ u, s.offset d = some u := by
  have hf := s.file.isLt
  have hr := s.rank.isLt
  have hf' := t.file.isLt
  have hr' := t.rank.isLt
  unfold Square.Away at h
  have hfile := step_on_board (a := s.file.val) (x := d.1) hn (by omega) (by omega)
  have hrank := step_on_board (a := s.rank.val) (x := d.2) hn (by omega) (by omega)
  refine ⟨⟨⟨(s.file.val + d.1).toNat, by omega⟩, ⟨(s.rank.val + d.2).toNat, by omega⟩⟩, ?_⟩
  rw [Square.offset_eq_some_iff]
  unfold Square.Away
  dsimp only
  omega

theorem away_succ_iff {n : Nat} (hu : s.Away u d.1 d.2) :
    s.Away t ((n + 1 : Nat) * d.1) ((n + 1 : Nat) * d.2) ↔ u.Away t (n * d.1) (n * d.2) := by
  unfold Square.Away at *
  rw [Nat.cast_succ, add_mul, add_mul, one_mul, one_mul]
  omega

theorem sees_rayFrom_iff {k : Nat} :
    Sees b (Square.rayFrom d k s) t ↔ ∃ n : Nat, 0 < n ∧ n ≤ k ∧ s.Away t (n * d.1) (n * d.2) ∧
      ∀ (j : Nat) (u : Square), 0 < j → j < n → s.Away u (j * d.1) (j * d.2) → b u = none := by
  induction k generalizing s with
  | zero =>
    simp only [Square.rayFrom, Sees, false_iff]
    rintro ⟨n, hn, hle, -⟩
    omega
  | succ k ih =>
    unfold Square.rayFrom
    cases ho : s.offset d with
    | none =>
      simp only [Sees, false_iff]
      rintro ⟨n, hn, -, haway, -⟩
      obtain ⟨u, hu⟩ := exists_offset_of_away hn haway
      rw [ho] at hu
      cases hu
    | some u =>
      have hu := Square.offset_eq_some_iff.mp ho
      have hone : s.Away u ((1 : Nat) * d.1) ((1 : Nat) * d.2) := by simpa using hu
      simp only [Sees]
      rw [ih]
      constructor
      · rintro (rfl | ⟨hempty, n, hn, hle, haway, hbetween⟩)
        · exact ⟨1, by omega, by omega, hone, fun j _ hj hlt => by omega⟩
        · refine ⟨n + 1, by omega, by omega, (away_succ_iff hu).mpr haway, fun j v hj hlt hv => ?_⟩
          obtain ⟨i, rfl⟩ := Nat.exists_eq_add_one_of_ne_zero hj.ne'
          rw [away_succ_iff hu] at hv
          rcases Nat.eq_zero_or_pos i with rfl | hi
          · have huv : u = v := Square.away_zero.mp (by simpa using hv)
            exact huv ▸ hempty
          · exact hbetween i v hi (by omega) hv
      · rintro ⟨n, hn, hle, haway, hbetween⟩
        obtain ⟨i, rfl⟩ := Nat.exists_eq_add_one_of_ne_zero hn.ne'
        rw [away_succ_iff hu] at haway
        rcases Nat.eq_zero_or_pos i with rfl | hi
        · exact .inl (Square.away_zero.mp (by simpa using haway)).symm
        · refine .inr ⟨hbetween 1 u (by omega) (by omega) hone, i, hi, by omega, haway, ?_⟩
          intro j v hj hlt hv
          exact hbetween (j + 1) v (by omega) (by omega) ((away_succ_iff hu).mpr hv)

/-- Seven steps of a queen lead across the board. -/
theorem le_seven_of_away {n : Nat} (hd : Straight d ∨ Diagonal d)
    (h : s.Away t (n * d.1) (n * d.2)) : n ≤ 7 := by
  have hf := s.file.isLt
  have hr := s.rank.isLt
  have hf' := t.file.isLt
  have hr' := t.rank.isLt
  obtain ⟨h1, h2, hne⟩ := unit_of_queen hd
  unfold Square.Away at h
  rcases hne with hne | hne
  · have hd1 : d.1 = 1 ∨ d.1 = -1 := by omega
    rcases hd1 with hd1 | hd1 <;> rw [hd1] at h <;> omega
  · have hd2 : d.2 = 1 ∨ d.2 = -1 := by omega
    rcases hd2 with hd2 | hd2 <;> rw [hd2] at h <;> omega

theorem sees_ray_iff (hd : Straight d ∨ Diagonal d) : Sees b (s.ray d) t ↔ Slides b d s t := by
  rw [Square.ray, sees_rayFrom_iff]
  constructor
  · rintro ⟨n, hn, -, haway, hbetween⟩
    exact ⟨n, hn, haway, hbetween⟩
  · rintro ⟨n, hn, haway, hbetween⟩
    exact ⟨n, hn, le_seven_of_away hd haway, haway, hbetween⟩

/-- A line is the same from both of its ends. -/
theorem slides_back (h : Slides b d s t) : Slides b (back d) t s := by
  obtain ⟨n, hn, haway, hbetween⟩ := h
  unfold Square.Away at haway
  refine ⟨n, hn, ?_, fun k u hk hlt hu => hbetween (n - k) u (by omega) (by omega) ?_⟩
  · unfold Square.Away back
    simp only [mul_neg]
    omega
  · unfold Square.Away back at *
    rw [Nat.cast_sub hlt.le, sub_mul, sub_mul]
    simp only [mul_neg] at hu
    omega

namespace Position

theorem holds_iff {kinds : List PieceKind} :
    p.holds side kinds s = true ↔ ∃ kind ∈ kinds, p.at? s = some ⟨kind, side⟩ := by
  unfold holds
  rw [Option.any_eq_true]
  constructor
  · rintro ⟨⟨kind, owner⟩, hs, hpiece⟩
    simp only [Bool.and_eq_true, beq_iff_eq, List.contains_iff_mem] at hpiece
    exact ⟨kind, hpiece.2, hpiece.1 ▸ hs⟩
  · rintro ⟨kind, hkind, hs⟩
    exact ⟨_, hs, by simp [hkind]⟩

theorem stepHolds_iff {kinds : List PieceKind} :
    p.stepHolds side kinds t d = true ↔
      ∃ s, ∃ kind ∈ kinds, t.Away s d.1 d.2 ∧ p.at? s = some ⟨kind, side⟩ := by
  unfold stepHolds
  rw [Option.any_eq_true]
  constructor
  · rintro ⟨s, hs, hholds⟩
    obtain ⟨kind, hkind, hat⟩ := holds_iff.mp hholds
    exact ⟨s, kind, hkind, Square.offset_eq_some_iff.mp hs, hat⟩
  · rintro ⟨s, kind, hkind, haway, hat⟩
    exact ⟨s, Square.offset_eq_some_iff.mpr haway, holds_iff.mpr ⟨kind, hkind, hat⟩⟩

theorem rayHolds_iff {kinds : List PieceKind} (hd : Straight d ∨ Diagonal d) :
    p.rayHolds side kinds t d = true ↔
      ∃ s, ∃ kind ∈ kinds, Slides p.at? d t s ∧ p.at? s = some ⟨kind, side⟩ := by
  unfold rayHolds
  rw [Option.any_eq_true]
  constructor
  · rintro ⟨s, hs, hholds⟩
    obtain ⟨kind, hkind, hat⟩ := holds_iff.mp hholds
    obtain ⟨hsees, -⟩ := find?_isSome_eq_some_iff.mp hs
    exact ⟨s, kind, hkind, (sees_ray_iff hd).mp hsees, hat⟩
  · rintro ⟨s, kind, hkind, hslides, hat⟩
    refine ⟨s, find?_isSome_eq_some_iff.mpr ⟨(sees_ray_iff hd).mpr hslides, ?_⟩,
      holds_iff.mpr ⟨kind, hkind, hat⟩⟩
    rw [hat]
    rfl

end Position

theorem queen_back (h : Straight d ∨ Diagonal d) : Straight (back d) ∨ Diagonal (back d) :=
  h.imp straight_back diagonal_back

namespace Position

theorem any_stepHolds_iff {kind : PieceKind} {steps : List (Int × Int)} {Direction : Int × Int → Prop}
    (hmem : ∀ d, d ∈ steps ↔ Direction d) (hback : ∀ d, Direction d → Direction (back d)) :
    steps.any (p.stepHolds side [kind] t) = true ↔
      ∃ s, p.at? s = some ⟨kind, side⟩ ∧ ∃ d, Direction d ∧ s.Away t d.1 d.2 := by
  rw [List.any_eq_true]
  constructor
  · rintro ⟨d, hd, hholds⟩
    obtain ⟨s, kind', hkind, haway, hat⟩ := stepHolds_iff.mp hholds
    rw [List.mem_singleton] at hkind
    exact ⟨s, hkind ▸ hat, back d, hback d ((hmem d).mp hd), haway.symm⟩
  · rintro ⟨s, hat, d, hd, haway⟩
    exact ⟨back d, (hmem _).mpr (hback d hd),
      stepHolds_iff.mpr ⟨s, kind, List.mem_singleton.mpr rfl, haway.symm, hat⟩⟩

theorem any_rayHolds_iff {kinds : List PieceKind} {rays : List (Int × Int)}
    {Direction : Int × Int → Prop} (hmem : ∀ d, d ∈ rays ↔ Direction d)
    (hback : ∀ d, Direction d → Direction (back d))
    (hqueen : ∀ d, Direction d → Straight d ∨ Diagonal d) :
    rays.any (p.rayHolds side kinds t) = true ↔
      ∃ s, ∃ kind ∈ kinds, p.at? s = some ⟨kind, side⟩ ∧ ∃ d, Direction d ∧ Slides p.at? d s t := by
  rw [List.any_eq_true]
  constructor
  · rintro ⟨d, hd, hholds⟩
    have hd := (hmem d).mp hd
    obtain ⟨s, kind, hkind, hslides, hat⟩ := (rayHolds_iff (hqueen d hd)).mp hholds
    exact ⟨s, kind, hkind, hat, back d, hback d hd, slides_back hslides⟩
  · rintro ⟨s, kind, hkind, hat, d, hd, hslides⟩
    have hd' := hback d hd
    exact ⟨back d, (hmem _).mpr hd',
      (rayHolds_iff (hqueen _ hd')).mpr ⟨s, kind, hkind, slides_back hslides, hat⟩⟩

theorem pawnHolds_iff {df : Int} :
    p.stepHolds side [.pawn] t (df, -side.forward) = true ↔
      ∃ s, p.at? s = some ⟨.pawn, side⟩ ∧ s.Away t (-df) side.forward := by
  rw [stepHolds_iff]
  constructor
  · rintro ⟨s, kind, hkind, haway, hat⟩
    rw [List.mem_singleton] at hkind
    have := haway.symm
    rw [neg_neg] at this
    exact ⟨s, hkind ▸ hat, this⟩
  · rintro ⟨s, hat, haway⟩
    have := haway.symm
    rw [neg_neg] at this
    exact ⟨s, .pawn, List.mem_singleton.mpr rfl, this, hat⟩

/-- The search for an attacker finds one exactly where the rules have one. -/
theorem isAttacked_iff : p.isAttacked t side = true ↔ Attacked p.at? side t := by
  have hstraight : ∀ d, Straight d → Straight d ∨ Diagonal d := fun d => .inl
  have hdiagonal : ∀ d, Diagonal d → Straight d ∨ Diagonal d := fun d => .inr
  unfold isAttacked
  rw [Bool.or_eq_true, Bool.or_eq_true, Bool.or_eq_true, Bool.or_eq_true, Bool.or_eq_true,
    pawnHolds_iff, pawnHolds_iff,
    any_stepHolds_iff (fun d => mem_knightJumps_iff) fun d => jump_back,
    any_stepHolds_iff (fun d => mem_allRays_iff) fun d => queen_back,
    any_rayHolds_iff (fun d => mem_rookRays_iff) (fun d => straight_back) hstraight,
    any_rayHolds_iff (fun d => mem_bishopRays_iff) (fun d => diagonal_back) hdiagonal]
  constructor
  · rintro (((((⟨s, hat, haway⟩ | ⟨s, hat, haway⟩) | ⟨s, hat, hd⟩) | ⟨s, hat, hd⟩) |
      ⟨s, kind, hkind, hat, d, hd, hslides⟩) | ⟨s, kind, hkind, hat, d, hd, hslides⟩)
    · exact ⟨s, .pawn, hat, .inr haway⟩
    · exact ⟨s, .pawn, hat, .inl haway⟩
    · exact ⟨s, .knight, hat, hd⟩
    · exact ⟨s, .king, hat, hd⟩
    · simp only [List.mem_cons, List.not_mem_nil, or_false] at hkind
      rcases hkind with rfl | rfl
      · exact ⟨s, .rook, hat, d, hd, hslides⟩
      · exact ⟨s, .queen, hat, d, .inl hd, hslides⟩
    · simp only [List.mem_cons, List.not_mem_nil, or_false] at hkind
      rcases hkind with rfl | rfl
      · exact ⟨s, .bishop, hat, d, hd, hslides⟩
      · exact ⟨s, .queen, hat, d, .inr hd, hslides⟩
  · rintro ⟨s, kind, hat, hattacks⟩
    cases kind with
    | pawn =>
      rcases hattacks with haway | haway
      · exact .inl (.inl (.inl (.inl (.inr ⟨s, hat, haway⟩))))
      · exact .inl (.inl (.inl (.inl (.inl ⟨s, hat, haway⟩))))
    | knight => exact .inl (.inl (.inl (.inr ⟨s, hat, hattacks⟩)))
    | king => exact .inl (.inl (.inr ⟨s, hat, hattacks⟩))
    | rook => exact .inl (.inr ⟨s, .rook, by simp, hat, hattacks⟩)
    | bishop => exact .inr ⟨s, .bishop, by simp, hat, hattacks⟩
    | queen =>
      obtain ⟨d, hd | hd, hslides⟩ := hattacks
      · exact .inl (.inr ⟨s, .queen, by simp, hat, d, hd, hslides⟩)
      · exact .inr ⟨s, .queen, by simp, hat, d, hd, hslides⟩

end Position
end PocketTerminal.Chess
