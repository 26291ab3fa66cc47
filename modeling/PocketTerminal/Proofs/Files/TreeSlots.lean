import PocketTerminal.Proofs.Files.Forest
import Mathlib.Data.List.Perm.Lattice

/-! # The slots of a tree

A descent that may go as deep as the store has slots meets every slot below its start, and
each of them once. So a walk from the root counts the live entries. -/
namespace PocketTerminal.Files.Store

variable {s : Store} {i j dir top : Slot} {m n k : Nat} {loose : Option Slot}

theorem Within.live (h : s.Within i top) (ht : s.Live top) : s.Live i := by
  cases h with
  | refl _ => exact ht
  | up hp _ => exact live_of_parent? hp

theorem Within.depth (h : s.Within i top) (ht : s.Depth top n) : ∃ m, s.Depth i m ∧ n ≤ m := by
  induction h with
  | refl _ => exact ⟨n, ht, le_rfl⟩
  | up hp _ ih =>
    obtain ⟨m, hm, hle⟩ := ih ht
    exact ⟨m + 1, .step hp hm, by omega⟩

theorem Depth.within_top (h : s.Depth i n) : ∃ top, s.Within i top ∧ s.Depth top 0 := by
  induction h with
  | top hl hp => exact ⟨_, .refl _, .top hl hp⟩
  | step hp _ ih =>
    obtain ⟨top, hw, ht⟩ := ih
    exact ⟨top, .up hp hw, ht⟩

namespace Forest

theorem depth_child (h : s.Forest loose) (hd : s.Depth dir k) (hi : i ∈ s.children dir) :
    s.Depth i (k + 1) := .step (h.mem_children.mp hi) hd

theorem within_root (h : s.Forest none) (hi : s.Live i) : s.Within i root := by
  obtain ⟨n, hn⟩ := h.grounded hi
  obtain ⟨top, hw, ht⟩ := hn.within_top
  cases ht with
  | top hl hp =>
    rcases h.eq_of_top hl hp with rfl | hloose
    · exact hw
    · cases hloose

theorem within_of_mem_slotsAt (h : s.Forest loose) (hj : j ∈ s.slotsAt n i) : s.Within j i := by
  induction n generalizing i with
  | zero => simp [slotsAt] at hj
  | succ n ih =>
    rcases List.mem_cons.mp hj with rfl | hj
    · exact .refl j
    · obtain ⟨child, hc, hj⟩ := List.mem_flatMap.mp hj
      exact (ih hj).trans (.up (h.mem_children.mp hc) (.refl i))

theorem mem_slotsAt (h : s.Forest loose) (hi : s.Depth i k) (hj : s.Depth j m) (hw : s.Within j i)
    (hlt : m < k + n) : j ∈ s.slotsAt n i := by
  induction n generalizing i k with
  | zero =>
    have := hw.depth_le hj hi
    omega
  | succ n ih =>
    rcases hw.eq_or_below with rfl | ⟨child, hc, hwc⟩
    · exact List.mem_cons_self
    · have hmem := h.mem_children.mpr hc
      have := ih (h.depth_child hi hmem) hwc (by omega)
      exact List.mem_cons_of_mem _ (List.mem_flatMap.mpr ⟨child, hmem, this⟩)

theorem slotsAt_nodup (h : s.Forest loose) (hi : s.Depth i k) : (s.slotsAt n i).Nodup := by
  induction n generalizing i k with
  | zero => exact List.nodup_nil
  | succ n ih =>
    refine List.nodup_cons.mpr ⟨fun hmem => ?_, List.nodup_flatMap.mpr ⟨fun c hc => ?_, ?_⟩⟩
    · obtain ⟨child, hc, hmem⟩ := List.mem_flatMap.mp hmem
      have := (h.within_of_mem_slotsAt hmem).depth_le hi (h.depth_child hi hc)
      omega
    · exact ih (h.depth_child hi hc)
    · refine (h.children_nodup i).pairwise_of_forall_ne fun a ha b hb hne => ?_
      refine List.disjoint_left.mpr fun x hxa hxb => hne ?_
      exact (h.within_of_mem_slotsAt hxa).eq_of_depth (h.within_of_mem_slotsAt hxb)
        (h.depth_child hi ha) (h.depth_child hi hb)

/-- A tree's slots are those at or below its top. -/
theorem mem_treeSlots_iff (h : s.Forest loose) (hi : s.Live i) :
    j ∈ s.treeSlots i ↔ s.Within j i := by
  refine ⟨h.within_of_mem_slotsAt, fun hw => ?_⟩
  obtain ⟨k, hk⟩ := h.grounded hi
  obtain ⟨m, hm, _⟩ := hw.depth hk
  have := hm.lt_size
  exact h.mem_slotsAt hk hm hw (by omega)

theorem treeSlots_nodup (h : s.Forest loose) (hi : s.Live i) : (s.treeSlots i).Nodup :=
  (h.grounded hi).elim fun _ hk => h.slotsAt_nodup hk

theorem length_visitsAt (h : s.Forest loose) (path : String) (depth : Nat) (hi : s.Live i) :
    (s.visitsAt n path depth i).length = (s.slotsAt n i).length := by
  induction n generalizing path depth i with
  | zero => rfl
  | succ n ih =>
    obtain ⟨e, he⟩ := hi
    simp only [visitsAt, he, slotsAt, children_eq he, List.length_cons, List.length_flatMap]
    congr 2
    refine List.map_congr_left fun child hc => ?_
    exact ih _ _ (h.live_of_mem_children (children_eq he ▸ hc))

/-- Every slot is live or free, and the live ones are those of the root's tree. -/
theorem treeSlots_append_free_perm (h : s.Forest none) :
    (s.treeSlots root ++ s.free).Perm (List.range s.slots.size) := by
  have hroot := h.root_live
  refine (List.perm_ext_iff_of_nodup ?_ List.nodup_range).mpr fun i => ?_
  · refine List.nodup_append'.mpr ⟨h.treeSlots_nodup hroot, h.free_nodup, ?_⟩
    refine List.disjoint_left.mpr fun i hi hf => ?_
    have hl := ((h.mem_treeSlots_iff hroot).mp hi).live hroot
    exact not_live_iff.mpr (h.mem_free.mp hf).2 hl
  · rw [List.mem_append, h.mem_treeSlots_iff hroot, h.mem_free, List.mem_range]
    constructor
    · rintro (hw | ⟨hlt, _⟩)
      · exact (hw.live hroot).lt_size
      · exact hlt
    · intro hlt
      by_cases hl : s.Live i
      · exact .inl (h.within_root hl)
      · exact .inr ⟨hlt, not_live_iff.mp hl⟩

theorem lookup_root : s.lookup "/" = some root := by
  rw [lookup, Path.spells_root.components]
  rfl

/-- The number of live entries is what a walk from the root counts. -/
theorem count_eq_length_walk (h : s.Forest none) : s.count = (s.walk "/").length := by
  have hresolve : s.resolve "/" = "/" :=
    Path.resolve_of_isNormal s.cwd s.home Path.spells_root.isNormal
  have hwalk : (s.walk "/").length = (s.treeSlots root).length := by
    unfold walk
    dsimp only
    rw [hresolve, lookup_root]
    exact h.length_visitsAt "/" 0 h.root_live
  have hperm := h.treeSlots_append_free_perm.length_eq
  rw [List.length_append, List.length_range] at hperm
  rw [count, hwalk]
  omega

end Forest
end PocketTerminal.Files.Store
