import Mathlib.Data.List.Count
import Mathlib.Data.List.Forall2
import Mathlib.Data.List.Nodup

/-! # Lists

How a count changes when one item changes sort, what is left of a list that keeps each item once,
how many items are better than one of the best, and what passes between lists that are related item
by item. -/
namespace PocketTerminal

theorem countP_update {α : Type} [DecidableEq α] {items : List α} (hnodup : items.Nodup) {a : α}
    (ha : a ∈ items) {f g : α → Bool} (hfg : ∀ b, b ≠ a → g b = f b) :
    items.countP g + (if f a then 1 else 0) = items.countP f + (if g a then 1 else 0) := by
  induction items with
  | nil => cases ha
  | cons b rest ih =>
    obtain ⟨hb, hrest⟩ := List.nodup_cons.mp hnodup
    rw [List.countP_cons, List.countP_cons]
    rcases List.mem_cons.mp ha with rfl | ha
    · have heq : rest.countP g = rest.countP f := by
        refine List.countP_congr fun c hc => ?_
        rw [hfg c fun he => hb (he ▸ hc)]
      omega
    · have hba : b ≠ a := fun he => hb (he ▸ ha)
      have := ih hrest ha
      rw [hfg b hba]
      omega

theorem nodup_eraseDups {α : Type} [DecidableEq α] (items : List α) : items.eraseDups.Nodup := by
  induction hlength : items.length using Nat.strongRecOn generalizing items with
  | _ length ih =>
    cases items with
    | nil => exact List.nodup_nil
    | cons a rest =>
      let others := rest.filter fun b => !b == a
      have hshorter : others.length < length := by
        rw [← hlength, List.length_cons]
        exact Nat.lt_succ_of_le (List.length_filter_le _ rest)
      have hgone : a ∉ others.eraseDups := by
        rw [List.mem_eraseDups, List.mem_filter]
        simp
      rw [List.eraseDups_cons]
      exact List.nodup_cons.mpr ⟨hgone, ih _ hshorter others rfl⟩

/-- Fewer items than so many are better than one among the first so many of a list that has the best
in front. -/
theorem length_filter_lt_of_mem_take {α : Type} {items : List α} {f : α → Nat}
    (hsorted : items.Pairwise fun a b => f b ≤ f a) {count : Nat} {a : α}
    (ha : a ∈ items.take count) : (items.filter fun b => f a < f b).length < count := by
  have hsplit := hsorted
  rw [← List.take_append_drop count items, List.pairwise_append] at hsplit
  have hbehind : (items.drop count).filter (fun b => f a < f b) = [] := by
    refine List.filter_eq_nil_iff.mpr fun b hb => ?_
    simpa using hsplit.2.2 a ha b hb
  have hbefore : ((items.take count).filter fun b => f a < f b).length < (items.take count).length :=
    List.length_filter_lt_length_iff_exists.mpr ⟨a, ha, by simp⟩
  calc (items.filter fun b => f a < f b).length
      = ((items.take count).filter fun b => f a < f b).length := by
        conv_lhs => rw [← List.take_append_drop count items]
        rw [List.filter_append, hbehind, List.append_nil]
    _ < (items.take count).length := hbefore
    _ ≤ count := List.length_take_le _ _

theorem forall₂_trans {α : Type} {R S T : α → α → Prop} {first second third : List α}
    (h : List.Forall₂ R first second) (h' : List.Forall₂ S second third)
    (htrans : ∀ a b c, R a b → S b c → T a c) : List.Forall₂ T first third := by
  induction h generalizing third with
  | nil =>
    cases h'
    exact .nil
  | cons hab _ ih =>
    cases h' with
    | cons hbc hrest => exact .cons (htrans _ _ _ hab hbc) (ih hrest)

theorem exists_of_mem_right {α : Type} {R : α → α → Prop} {first second : List α} {b : α}
    (h : List.Forall₂ R first second) (hmem : b ∈ second) : ∃ a ∈ first, R a b := by
  induction h with
  | nil => cases hmem
  | cons hab _ ih =>
    rcases List.mem_cons.mp hmem with rfl | hmem
    · exact ⟨_, List.mem_cons_self, hab⟩
    · obtain ⟨a, ha, hR⟩ := ih hmem
      exact ⟨a, List.mem_cons_of_mem _ ha, hR⟩

/-- Items that are related count alike when the relation keeps what is counted. -/
theorem countP_eq_of_forall₂ {α : Type} {R : α → α → Prop} {first second : List α} {sort : α → Bool}
    (h : List.Forall₂ R first second) (hsort : ∀ a b, R a b → sort b = sort a) :
    second.countP sort = first.countP sort := by
  induction h with
  | nil => rfl
  | cons hab _ ih => rw [List.countP_cons, List.countP_cons, hsort _ _ hab, ih]

end PocketTerminal
