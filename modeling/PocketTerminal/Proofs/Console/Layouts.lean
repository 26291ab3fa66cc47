import PocketTerminal.Console.Rows
import PocketTerminal.Proofs.Text.Pieces
import Mathlib.Data.List.Nodup

/-! # The layout of drawn text

The rows of a drawing are laid out by height, and in each row the texts drawn at that height by
column, those at one place in drawing order. Every text that is not blank stands in one row,
once. -/
namespace PocketTerminal.Console

variable {p q : Placed} {texts sorted : List Placed} {x y : Int32}

def drawn (drawing : Drawing) : List Placed :=
  drawing.filterMap fun
    | .text text x y _ _ => some ⟨x, y, text⟩
    | .rect .. => none

def shown (drawing : Drawing) : List Placed :=
  (drawn drawing).filter fun p => Text.trim p.text ≠ ""

/-- A row at one height: the texts drawn there from left to right, and for each column those drawn
there in drawing order. -/
structure Row (texts : List Placed) (y : Int32) (row : List Placed) : Prop where
  height : ∀ p ∈ row, p.y = y
  sorted : row.Pairwise fun p q => p.x ≤ q.x
  kept : ∀ x, row.filter (fun p => p.x = x) = texts.filter fun p => p.x = x ∧ p.y = y

theorem placed_eq_shown (drawing : Drawing) : placed drawing = shown drawing := by
  unfold placed shown drawn
  rw [List.filter_filterMap]
  refine List.filterMap_congr fun stroke _ => ?_
  cases stroke with
  | rect => rfl
  | text text x y size color =>
    by_cases hblank : Text.allBlank text = true
    · simp [hblank, Text.trim_eq_empty_iff.mpr hblank, Option.filter]
    · simp [hblank, Text.trim_eq_empty_iff.not.mpr hblank, Option.filter]

theorem isBefore_iff : p.isBefore q = true ↔ p.y < q.y ∨ p.y = q.y ∧ p.x ≤ q.x := by
  simp [Placed.isBefore]

theorem isBefore_trans (p q r : Placed) (hpq : p.isBefore q = true) (hqr : q.isBefore r = true) :
    p.isBefore r = true := by
  rw [isBefore_iff] at hpq hqr ⊢
  simp only [Int32.lt_iff_toInt_lt, Int32.le_iff_toInt_le, ← Int32.toInt_inj] at hpq hqr ⊢
  omega

theorem isBefore_total (p q : Placed) : (p.isBefore q || q.isBefore p) = true := by
  rw [Bool.or_eq_true, isBefore_iff, isBefore_iff]
  simp only [Int32.lt_iff_toInt_lt, Int32.le_iff_toInt_le, ← Int32.toInt_inj]
  omega

theorem le_of_isBefore (h : p.isBefore q = true) : p.y ≤ q.y := by
  rw [isBefore_iff] at h
  simp only [Int32.lt_iff_toInt_lt, Int32.le_iff_toInt_le, ← Int32.toInt_inj] at h ⊢
  omega

/-- Texts at one place are not moved past each other. -/
theorem filter_mergeSort (texts : List Placed) (x y : Int32) :
    (texts.mergeSort Placed.isBefore).filter (fun p => p.x = x ∧ p.y = y) =
      texts.filter fun p => p.x = x ∧ p.y = y := by
  let here : Placed → Bool := fun p => p.x = x ∧ p.y = y
  have hordered : (texts.filter here).Pairwise fun p q => p.isBefore q = true := by
    refine List.pairwise_of_forall_mem_list fun p hp q hq => ?_
    simp only [here, List.mem_filter, decide_eq_true_eq] at hp hq
    rw [isBefore_iff, hp.2.1, hp.2.2, hq.2.1, hq.2.2]
    exact .inr ⟨rfl, Int32.le_refl x⟩
  have hsub : (texts.filter here).Sublist ((texts.mergeSort Placed.isBefore).filter here) := by
    have hmerged :=
      List.sublist_mergeSort isBefore_trans isBefore_total hordered List.filter_sublist
    have hfiltered := hmerged.filter here
    rwa [List.filter_filter, funext fun p => Bool.and_self (here p)] at hfiltered
  exact (hsub.eq_of_length ((List.mergeSort_perm texts _).filter here).length_eq.symm).symm

def atHeight (texts : List Placed) (y : Int32) : List Placed := texts.filter fun p => p.y = y

def joined (row : List Placed) : String := String.intercalate " " (row.map Placed.text)

/-- The heights at which there are texts, for texts that are sorted by height: they cut the texts
into rows. -/
structure Layout (sorted : List Placed) (heights : List Int32) : Prop where
  increasing : heights.Pairwise (· < ·)
  mem_iff : ∀ y, y ∈ heights ↔ ∃ p ∈ sorted, p.y = y
  whole : heights.flatMap (atHeight sorted) = sorted
  gathered : gather sorted = heights.map fun y => (y, joined (atHeight sorted y))

theorem atHeight_cons_self (p : Placed) (texts : List Placed) :
    atHeight (p :: texts) p.y = p :: atHeight texts p.y :=
  List.filter_cons_of_pos (decide_eq_true rfl)

theorem atHeight_cons_of_ne (h : p.y ≠ y) (texts : List Placed) :
    atHeight (p :: texts) y = atHeight texts y :=
  List.filter_cons_of_neg (by simpa using h)

theorem atHeight_eq_nil (h : ∀ p ∈ texts, p.y ≠ y) : atHeight texts y = [] :=
  List.filter_eq_nil_iff.mpr fun p hp => by simpa using h p hp

variable {heights : List Int32}

/-- The first text may be the first of the topmost row. -/
theorem Layout.same (h : Layout sorted (p.y :: heights)) :
    Layout (p :: sorted) (p.y :: heights) := by
  obtain ⟨hbelow, -⟩ := List.pairwise_cons.mp h.increasing
  have hothers : ∀ y ∈ heights, atHeight (p :: sorted) y = atHeight sorted y :=
    fun y hy => atHeight_cons_of_ne (Int32.ne_of_lt (hbelow y hy)) sorted
  obtain ⟨q, hq, hqy⟩ := (h.mem_iff p.y).mp List.mem_cons_self
  have hthere : q ∈ atHeight sorted p.y := List.mem_filter.mpr ⟨hq, decide_eq_true hqy⟩
  obtain ⟨first, row, hrow⟩ : ∃ first row, atHeight sorted p.y = first :: row :=
    List.exists_cons_of_ne_nil (List.ne_nil_of_mem hthere)
  constructor
  · exact h.increasing
  · intro y
    rw [List.exists_mem_cons_iff, ← h.mem_iff]
    exact ⟨.inr, fun hy => hy.elim (fun he => he ▸ List.mem_cons_self) id⟩
  · have hwhole := h.whole
    rw [List.flatMap_cons] at hwhole
    rw [List.flatMap_cons, atHeight_cons_self, List.flatMap_congr hothers, List.cons_append, hwhole]
  · have hjoined : joined (atHeight (p :: sorted) p.y) =
        p.text ++ " " ++ joined (atHeight sorted p.y) := by
      rw [atHeight_cons_self, hrow]
      exact String.intercalate_cons_cons
    rw [gather, h.gathered, List.map_cons, List.map_cons, hjoined]
    dsimp only
    rw [if_pos rfl]
    exact congrArg _ (List.map_congr_left fun y hy => by rw [hothers y hy])

/-- Or it is a row of its own above all others. -/
theorem Layout.above (h : Layout sorted heights) (hp : ∀ y ∈ heights, p.y < y) :
    Layout (p :: sorted) (p.y :: heights) := by
  have hothers : ∀ y ∈ heights, atHeight (p :: sorted) y = atHeight sorted y :=
    fun y hy => atHeight_cons_of_ne (Int32.ne_of_lt (hp y hy)) sorted
  have halone : atHeight (p :: sorted) p.y = [p] := by
    rw [atHeight_cons_self, atHeight_eq_nil]
    intro q hq he
    exact Int32.lt_irrefl (hp p.y ((h.mem_iff p.y).mpr ⟨q, hq, he⟩))
  constructor
  · exact List.pairwise_cons.mpr ⟨hp, h.increasing⟩
  · intro y
    rw [List.exists_mem_cons_iff, List.mem_cons, h.mem_iff, eq_comm]
  · rw [List.flatMap_cons, halone, List.flatMap_congr hothers, h.whole]
    rfl
  · have hjoined : joined [p] = p.text := String.intercalate_singleton
    rw [List.map_cons, halone, hjoined, List.map_congr_left fun y hy => by rw [hothers y hy],
      ← h.gathered, gather]
    cases heights with
    | nil => rw [h.gathered]; rfl
    | cons y heights =>
      rw [h.gathered]
      exact if_neg (Int32.ne_of_lt (hp y List.mem_cons_self)).symm

theorem exists_layout (h : sorted.Pairwise fun p q => p.y ≤ q.y) :
    ∃ heights, Layout sorted heights := by
  induction sorted with
  | nil => exact ⟨[], .nil, by simp, rfl, rfl⟩
  | cons p sorted ih =>
    obtain ⟨hfirst, hsorted⟩ := List.pairwise_cons.mp h
    obtain ⟨heights, hlayout⟩ := ih hsorted
    cases heights with
    | nil => exact ⟨[p.y], hlayout.above (by simp)⟩
    | cons top below =>
      obtain ⟨q, hq, hqy⟩ := (hlayout.mem_iff top).mp List.mem_cons_self
      by_cases he : top = p.y
      · subst he
        exact ⟨_, hlayout.same⟩
      · have hlt : p.y < top := Int32.lt_of_le_of_ne (hqy ▸ hfirst q hq) (Ne.symm he)
        refine ⟨_, hlayout.above (List.forall_mem_cons.mpr ⟨hlt, fun y hy => ?_⟩)⟩
        exact Int32.lt_trans hlt ((List.pairwise_cons.mp hlayout.increasing).1 y hy)

theorem sorted_mergeSort (texts : List Placed) :
    (texts.mergeSort Placed.isBefore).Pairwise fun p q => p.isBefore q = true :=
  List.pairwise_mergeSort isBefore_trans isBefore_total texts

theorem row_atHeight (texts : List Placed) (y : Int32) :
    Row texts y (atHeight (texts.mergeSort Placed.isBefore) y) := by
  constructor
  · intro p hp
    exact of_decide_eq_true (List.mem_filter.mp hp).2
  · refine (sorted_mergeSort texts).filter _ |>.imp_of_mem fun {p q} hp hq hpq => ?_
    have hpy := of_decide_eq_true (List.mem_filter.mp hp).2
    have hqy := of_decide_eq_true (List.mem_filter.mp hq).2
    rw [isBefore_iff, hpy, hqy] at hpq
    exact (hpq.resolve_left (Int32.lt_irrefl)).2
  · intro x
    rw [← filter_mergeSort texts x y, atHeight, List.filter_filter]
    exact List.filter_congr fun p _ => by simp

/-- For every drawing: the rows are one for each height at which a text that is not blank was drawn,
from top to bottom, each of them the texts drawn there from left to right, in drawing order where
they were drawn at one place, with one blank between neighbours. No text that is not blank is lost
or repeated, and no blank one is kept. -/
theorem rows_layout (drawing : Drawing) : ∃ (heights : List Int32) (row : Int32 → List Placed),
    heights.Pairwise (· < ·) ∧
    (∀ y, y ∈ heights ↔ ∃ p ∈ shown drawing, p.y = y) ∧
    (∀ y, Row (shown drawing) y (row y)) ∧
    (heights.flatMap row).Perm (shown drawing) ∧
    rows drawing = heights.map fun y => String.intercalate " " ((row y).map Placed.text) := by
  obtain ⟨heights, hlayout⟩ := exists_layout
    ((sorted_mergeSort (shown drawing)).imp fun h => le_of_isBefore h)
  refine ⟨heights, atHeight ((shown drawing).mergeSort Placed.isBefore), hlayout.increasing, ?_,
    row_atHeight _, ?_, ?_⟩
  · intro y
    rw [hlayout.mem_iff]
    simp only [List.mem_mergeSort]
  · rw [hlayout.whole]
    exact List.mergeSort_perm _ _
  · rw [rows, placed_eq_shown, hlayout.gathered, List.map_map]
    rfl

end PocketTerminal.Console
