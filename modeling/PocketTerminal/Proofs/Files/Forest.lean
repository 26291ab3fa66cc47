import PocketTerminal.Proofs.Files.PathComponents
import PocketTerminal.Proofs.Files.Slots
import Mathlib.Data.List.Chain
import Mathlib.Data.List.Nodup
import Mathlib.Data.List.Perm.Subperm
import Mathlib.Order.Basic

/-! # Forests of slots

In a forest every parent link is met by a listing and every listing by a parent link, and
following parents comes to an end. Only the root ends it, but while an entry is being
moved one loose slot does too. -/
namespace PocketTerminal.Files.Store

variable {s : Store} {i j dir top : Slot} {m n : Nat}

/-- The slot is the other one or lies below it. -/
inductive Within (s : Store) : Slot → Slot → Prop
  | refl (i : Slot) : s.Within i i
  | up {i dir top : Slot} : s.parent? i = some dir → s.Within dir top → s.Within i top

/-- Following parents ends after so many steps. -/
inductive Depth (s : Store) : Slot → Nat → Prop
  | top {i : Slot} : s.Live i → s.parent? i = none → s.Depth i 0
  | step {i dir : Slot} {n : Nat} : s.parent? i = some dir → s.Depth dir n → s.Depth i (n + 1)

def Before (s : Store) (i j : Slot) : Prop :=
  ∃ a b, s.name? i = some a ∧ s.name? j = some b ∧ a < b

structure Forest (s : Store) (loose : Option Slot) : Prop where
  free_nodup : s.free.Nodup
  /-- Exactly the empty slots are free. -/
  mem_free : ∀ {i}, i ∈ s.free ↔ i < s.slots.size ∧ s.at? i = none
  root_directory : s.isDirectory root = true
  root_top : s.parent? root = none
  loose_top : ∀ {i}, loose = some i → i ≠ root ∧ s.Live i ∧ s.parent? i = none
  eq_of_top : ∀ {i}, s.Live i → s.parent? i = none → i = root ∨ loose = some i
  mem_children : ∀ {dir i}, i ∈ s.children dir ↔ s.parent? i = some dir
  sorted : ∀ dir, (s.children dir).Pairwise s.Before
  proper : ∀ {i name}, i ≠ root → s.name? i = some name → Path.ProperName name
  grounded : ∀ {i}, s.Live i → ∃ n, s.Depth i n

theorem live_of_isDirectory (h : s.isDirectory i = true) : s.Live i := by
  obtain ⟨e, he, _⟩ := isDirectory_iff.mp h
  exact ⟨e, he⟩

theorem live_of_parent? (h : s.parent? i = some dir) : s.Live i := by
  obtain ⟨e, he, _⟩ := parent?_eq_some_iff.mp h
  exact ⟨e, he⟩

theorem live_of_name? {name : String} (h : s.name? i = some name) : s.Live i := by
  obtain ⟨e, he, _⟩ := name?_eq_some_iff.mp h
  exact ⟨e, he⟩

theorem not_live_iff : ¬ s.Live i ↔ s.at? i = none := by
  simp [Live, Option.eq_none_iff_forall_ne_some]

theorem Live.lt_size (h : s.Live i) : i < s.slots.size :=
  h.elim fun _ he => lt_size_of_live he

theorem Live.name? (h : s.Live i) : ∃ name, s.name? i = some name :=
  h.elim fun e he => ⟨e.name, name?_eq he⟩

theorem Depth.live (h : s.Depth i n) : s.Live i := by
  cases h with
  | top hl _ => exact hl
  | step hp _ => exact live_of_parent? hp

theorem Depth.unique (h : s.Depth i m) (h' : s.Depth i n) : m = n := by
  induction h generalizing n with
  | top _ hp =>
    cases h' with
    | top _ _ => rfl
    | step hp' _ => rw [hp] at hp'; cases hp'
  | step hp _ ih =>
    cases h' with
    | top _ hp' => rw [hp] at hp'; cases hp'
    | step hp' h' =>
      rw [hp] at hp'
      cases hp'
      rw [ih h']

/-- The slots from a slot up, each deeper than the next. -/
theorem Depth.exists_chain (h : s.Depth i n) :
    ∃ chain : List Slot, chain.length = n + 1 ∧ chain.Nodup ∧ chain.head? = some i ∧
      (∀ j ∈ chain, ∃ k ≤ n, s.Depth j k) ∧
      chain.IsChain (fun child dir => s.parent? child = some dir) ∧
      (∀ j, chain.getLast? = some j → s.parent? j = none) := by
  induction h with
  | @top i hl hp =>
    exact ⟨[i], rfl, List.nodup_singleton i, rfl,
      by simpa using Depth.top hl hp, List.isChain_singleton i, by simpa using hp⟩
  | @step i dir n hp hd ih =>
    obtain ⟨chain, hlen, hnodup, hhead, hdepth, hchain, hlast⟩ := ih
    obtain ⟨d, rest, rfl⟩ : ∃ d rest, chain = d :: rest :=
      List.exists_cons_of_ne_nil (by rintro rfl; cases hhead)
    simp only [List.head?_cons, Option.some.injEq] at hhead
    subst hhead
    refine ⟨i :: d :: rest, by simpa using hlen, ?_, rfl, ?_, ?_, ?_⟩
    · refine List.nodup_cons.mpr ⟨fun hmem => ?_, hnodup⟩
      obtain ⟨k, hk, hik⟩ := hdepth i hmem
      have := hik.unique (Depth.step hp hd)
      omega
    · intro j hj
      rcases List.mem_cons.mp hj with rfl | hj
      · exact ⟨n + 1, le_rfl, Depth.step hp hd⟩
      · obtain ⟨k, hk, hjk⟩ := hdepth j hj
        exact ⟨k, by omega, hjk⟩
    · exact List.isChain_cons_cons.mpr ⟨hp, hchain⟩
    · simpa using hlast

/-- No chain of parents is longer than there are slots. -/
theorem Depth.lt_size (h : s.Depth i n) : n < s.slots.size := by
  obtain ⟨chain, hlen, hnodup, -, hdepth, -, -⟩ := h.exists_chain
  have hsub : chain ⊆ List.range s.slots.size := by
    intro j hj
    obtain ⟨k, -, hk⟩ := hdepth j hj
    exact List.mem_range.mpr hk.live.lt_size
  have hle := (List.subperm_of_subset hnodup hsub).length_le
  rw [hlen, List.length_range] at hle
  omega

theorem Within.trans {a : Slot} (h : s.Within i dir) (h' : s.Within dir a) : s.Within i a := by
  induction h with
  | refl _ => exact h'
  | up hp _ ih => exact .up hp (ih h')

/-- What lies below a slot lies at or below one of the entries that it lists. -/
theorem Within.eq_or_below (h : s.Within i top) :
    i = top ∨ ∃ child, s.parent? child = some top ∧ s.Within i child := by
  induction h with
  | refl _ => exact .inl rfl
  | @up i dir top hp hw ih =>
    rcases ih with rfl | ⟨child, hc, hwc⟩
    · exact .inr ⟨i, hp, .refl i⟩
    · exact .inr ⟨child, hc, .up hp hwc⟩

theorem Within.depth_le (h : s.Within i top) (hi : s.Depth i m) (ht : s.Depth top n) : n ≤ m := by
  induction h generalizing m with
  | refl _ => exact (ht.unique hi).le
  | up hp _ ih =>
    cases hi with
    | top _ hp' => rw [hp] at hp'; cases hp'
    | step hp' hd =>
      rw [hp] at hp'
      cases hp'
      exact (ih hd ht).trans (Nat.le_succ _)

/-- Only one slot of each depth is above a slot. -/
theorem Within.eq_of_depth {a b : Slot} (ha : s.Within i a) (hb : s.Within i b)
    (hda : s.Depth a n) (hdb : s.Depth b n) : a = b := by
  induction ha with
  | refl i =>
    cases hb with
    | refl _ => rfl
    | up hp hw =>
      cases hda with
      | top _ hp' => rw [hp] at hp'; cases hp'
      | step hp' hd =>
        rw [hp] at hp'
        cases hp'
        have := hw.depth_le hd hdb
        omega
  | up hp hw ih =>
    cases hb with
    | refl _ =>
      cases hdb with
      | top _ hp' => rw [hp] at hp'; cases hp'
      | step hp' hd =>
        rw [hp] at hp'
        cases hp'
        have := hw.depth_le hd hda
        omega
    | up hp' hw' =>
      rw [hp] at hp'
      cases hp'
      exact ih hw' hda

/-- The search for a slot above another is exact once it may take as many steps as the
slot is deep. -/
theorem climbsTo_iff (h : s.Depth i m) (hle : m ≤ n) : s.climbsTo top n i = true ↔ s.Within i top := by
  induction n generalizing i m with
  | zero =>
    obtain rfl : m = 0 := by omega
    cases h with
    | top _ hp =>
      simp only [climbsTo, beq_iff_eq]
      refine ⟨fun he => he ▸ .refl i, fun hw => ?_⟩
      cases hw with
      | refl _ => rfl
      | up hp' _ => rw [hp] at hp'; cases hp'
  | succ n ih =>
    simp only [climbsTo, Bool.or_eq_true, beq_iff_eq, Option.any_eq_true]
    constructor
    · rintro (rfl | ⟨dir, hp, hc⟩)
      · exact .refl i
      · cases h with
        | top _ hp' => rw [hp] at hp'; cases hp'
        | step hp' hd =>
          rw [hp] at hp'
          cases hp'
          exact .up hp ((ih hd (by omega)).mp hc)
    · intro hw
      cases hw with
      | refl _ => exact .inl rfl
      | up hp hw =>
        cases h with
        | top _ hp' => rw [hp] at hp'; cases hp'
        | step hp' hd =>
          rw [hp] at hp'
          cases hp'
          exact .inr ⟨_, hp, (ih hd (by omega)).mpr hw⟩

namespace Forest

variable {loose : Option Slot}

theorem directory_of_parent (h : s.Forest loose) (hp : s.parent? i = some dir) : s.isDirectory dir = true :=
  isDirectory_of_mem_children (h.mem_children.mpr hp)

theorem live_of_mem_children (h : s.Forest loose) (hi : i ∈ s.children dir) : s.Live i :=
  live_of_parent? (h.mem_children.mp hi)

theorem ne_root_of_mem_children (h : s.Forest loose) (hi : i ∈ s.children dir) : i ≠ root := by
  rintro rfl
  rw [h.mem_children, h.root_top] at hi
  cases hi

theorem root_live (h : s.Forest loose) : s.Live root := live_of_isDirectory h.root_directory

theorem children_nodup (h : s.Forest loose) (dir : Slot) : (s.children dir).Nodup := by
  refine (h.sorted dir).imp fun hb => ?_
  obtain ⟨x, y, hx, hy, hlt⟩ := hb
  rintro rfl
  rw [hx] at hy
  cases hy
  exact absurd hlt (String.lt_irrefl x)

/-- Two entries of one directory never share a name. -/
theorem eq_of_name (h : s.Forest loose) (hi : i ∈ s.children dir) (hj : j ∈ s.children dir)
    (hn : s.name? i = s.name? j) : i = j := by
  refine List.inj_on_of_nodup_map ?_ hi hj hn
  refine List.pairwise_map.mpr ((h.sorted dir).imp fun hb he => ?_)
  obtain ⟨x, y, hx, hy, hlt⟩ := hb
  rw [hx, hy] at he
  cases he
  exact absurd hlt (String.lt_irrefl x)

/-- A name finds the entry of that name and no other. -/
theorem find?_eq_some_iff (h : s.Forest loose) {name : String} :
    s.find? dir name = some i ↔ i ∈ s.children dir ∧ s.name? i = some name := by
  unfold find?
  constructor
  · intro hf
    exact ⟨List.mem_of_find?_eq_some hf, by simpa using List.find?_some hf⟩
  · rintro ⟨hi, hn⟩
    cases hf : (s.children dir).find? fun slot => s.name? slot == some name with
    | none => exact absurd hn (by simpa using List.find?_eq_none.mp hf i hi)
    | some j =>
      have hj : s.name? j = some name := by simpa using List.find?_some hf
      rw [h.eq_of_name (List.mem_of_find?_eq_some hf) hi (hj.trans hn.symm)]

theorem find?_eq_none_iff {name : String} :
    s.find? dir name = none ↔ ∀ i ∈ s.children dir, s.name? i ≠ some name := by
  simp [find?, List.find?_eq_none]

theorem isWithin_iff (h : s.Forest loose) (hi : s.Live i) : s.isWithin i top = true ↔ s.Within i top := by
  obtain ⟨n, hn⟩ := h.grounded hi
  exact climbsTo_iff hn hn.lt_size.le

theorem ne_of_parent (h : s.Forest loose) (hp : s.parent? i = some dir) : dir ≠ i := by
  rintro rfl
  obtain ⟨n, hn⟩ := h.grounded (live_of_parent? hp)
  have := hn.unique (Depth.step hp hn)
  omega

end Forest
end PocketTerminal.Files.Store
