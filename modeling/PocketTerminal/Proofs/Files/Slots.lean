import PocketTerminal.Files.Change

/-! # What an operation does to every slot

One equation for each operation on slots: the entry that it leaves in any slot at all.
Names, listings and parents are read off the entry, so nothing else about the operations
has to be known later on. -/
namespace PocketTerminal.Files

namespace Entry

@[simp] theorem relist_name (change : List Slot → List Slot) (e : Entry) :
    (e.relist change).name = e.name := by
  unfold relist
  split <;> rfl

@[simp] theorem relist_parent (change : List Slot → List Slot) (e : Entry) :
    (e.relist change).parent = e.parent := by
  unfold relist
  split <;> rfl

@[simp] theorem relist_isDirectory (change : List Slot → List Slot) (e : Entry) :
    (e.relist change).isDirectory = e.isDirectory := by
  unfold relist
  split
  · next h => simp [isDirectory, h]
  · rfl

theorem relist_children {change : List Slot → List Slot} {e : Entry} (h : e.isDirectory = true) :
    (e.relist change).children = change e.children := by
  obtain ⟨name, pageSection, payload, parent⟩ := e
  cases payload with
  | text content => cases h
  | children slots => rfl

theorem isDirectory_of_mem_children {e : Entry} {i : Slot} (h : i ∈ e.children) :
    e.isDirectory = true := by
  unfold children at h
  split at h
  · next hp => simp [isDirectory, hp]
  · simp at h

end Entry

namespace Store

variable {s : Store} {i j dir child : Slot}

def Live (s : Store) (i : Slot) : Prop := ∃ e, s.at? i = some e

theorem lt_size_of_live {e : Entry} (h : s.at? i = some e) : i < s.slots.size := by
  refine Nat.lt_of_not_le fun hge => ?_
  unfold at? at h
  rw [Array.getElem?_eq_none hge] at h
  simp at h

theorem isDirectory_iff : s.isDirectory i = true ↔ ∃ e, s.at? i = some e ∧ e.isDirectory = true := by
  simp [isDirectory, Option.any_eq_true]

theorem children_eq {e : Entry} (h : s.at? i = some e) : s.children i = e.children := by
  simp [children, h]

theorem children_of_not_live (h : s.at? i = none) : s.children i = [] := by simp [children, h]

theorem name?_eq {e : Entry} (h : s.at? i = some e) : s.name? i = some e.name := by
  simp [name?, h]

theorem parent?_eq {e : Entry} (h : s.at? i = some e) : s.parent? i = e.parent := by
  simp [parent?, h]

theorem parent?_eq_some_iff : s.parent? i = some dir ↔
    ∃ e, s.at? i = some e ∧ e.parent = some dir := by
  simp [parent?, Option.bind_eq_some_iff]

theorem name?_eq_some_iff {name : String} : s.name? i = some name ↔
    ∃ e, s.at? i = some e ∧ e.name = name := by
  simp [name?]

theorem mem_children_iff : i ∈ s.children dir ↔ ∃ e, s.at? dir = some e ∧ i ∈ e.children := by
  cases h : s.at? dir <;> simp [children, h]

theorem isDirectory_of_mem_children (h : i ∈ s.children dir) : s.isDirectory dir = true := by
  obtain ⟨e, he, hi⟩ := mem_children_iff.mp h
  exact isDirectory_iff.mpr ⟨e, he, Entry.isDirectory_of_mem_children hi⟩

theorem at?_set {slots : Array (Option Entry)} {value : Option Entry} (hi : i < slots.size) :
    (slots.setIfInBounds i value)[j]?.join = if j = i then value else slots[j]?.join := by
  rw [Array.getElem?_setIfInBounds]
  by_cases hij : i = j
  · subst hij
    simp [hi]
  · simp [hij, Ne.symm hij]

theorem at?_modify (change : Entry → Entry) :
    (s.modify i change).at? j = if j = i then (s.at? i).map change else s.at? j := by
  unfold modify
  cases h : s.at? i with
  | none =>
    by_cases hji : j = i
    · subst hji
      simp [h]
    · simp [hji]
  | some e =>
    rw [Option.map_some]
    exact at?_set (lt_size_of_live h)

@[simp] theorem modify_cwd (change : Entry → Entry) : (s.modify i change).cwd = s.cwd := by
  unfold modify
  split <;> rfl

@[simp] theorem modify_home (change : Entry → Entry) : (s.modify i change).home = s.home := by
  unfold modify
  split <;> rfl

@[simp] theorem modify_free (change : Entry → Entry) : (s.modify i change).free = s.free := by
  unfold modify
  split <;> rfl

@[simp] theorem modify_size (change : Entry → Entry) :
    (s.modify i change).slots.size = s.slots.size := by
  unfold modify
  split <;> simp

theorem at?_alloc (e : Entry) (h : ∀ k ∈ s.free, k < s.slots.size) :
    (s.alloc e).2.at? j = if j = (s.alloc e).1 then some e else s.at? j := by
  unfold alloc
  split
  · next slot free hfree =>
    exact at?_set (h slot (by simp [hfree]))
  · unfold at?
    rw [Array.getElem?_push]
    split <;> rfl

@[simp] theorem alloc_cwd (e : Entry) : (s.alloc e).2.cwd = s.cwd := by
  unfold alloc
  split <;> rfl

@[simp] theorem alloc_home (e : Entry) : (s.alloc e).2.home = s.home := by
  unfold alloc
  split <;> rfl

theorem at?_release (hi : i < s.slots.size) :
    (s.release i).at? j = if j = i then none else s.at? j := at?_set hi

@[simp] theorem release_size : (s.release i).slots.size = s.slots.size := by simp [release]

theorem at?_foldl_release {given : List Slot} (h : ∀ k ∈ given, k < s.slots.size) :
    (given.foldl release s).at? j = if j ∈ given then none else s.at? j := by
  induction given generalizing s with
  | nil => simp
  | cons k rest ih =>
    have hk : k < s.slots.size := h k List.mem_cons_self
    rw [List.foldl_cons, ih (by simpa using fun l hl => h l (List.mem_cons_of_mem _ hl)),
      at?_release hk]
    by_cases hjk : j = k <;> by_cases hj : j ∈ rest <;> simp [hjk, hj]

@[simp] theorem foldl_release_size (given : List Slot) :
    (given.foldl release s).slots.size = s.slots.size := by
  induction given generalizing s with
  | nil => rfl
  | cons k rest ih => rw [List.foldl_cons, ih, release_size]

@[simp] theorem foldl_release_free (given : List Slot) :
    (given.foldl release s).free = given.reverse ++ s.free := by
  induction given generalizing s with
  | nil => rfl
  | cons k rest ih => simp [ih, release]

@[simp] theorem foldl_release_cwd (given : List Slot) : (given.foldl release s).cwd = s.cwd := by
  induction given generalizing s with
  | nil => rfl
  | cons k rest ih => exact ih

@[simp] theorem foldl_release_home (given : List Slot) : (given.foldl release s).home = s.home := by
  induction given generalizing s with
  | nil => rfl
  | cons k rest ih => exact ih

theorem at?_link (hne : dir ≠ child) :
    (s.link dir child).at? j =
      if j = child then (s.at? child).map fun e => { e with parent := some dir }
      else if j = dir then
        (s.at? dir).map (Entry.relist (s.placeByName ((s.name? child).getD "") child))
      else s.at? j := by
  rw [link, at?_modify]
  simp only [at?_modify, if_neg (Ne.symm hne)]

theorem at?_unlink (hp : s.parent? child = some dir) (hne : dir ≠ child) :
    (s.unlink child).at? j =
      if j = child then (s.at? child).map fun e => { e with parent := none }
      else if j = dir then (s.at? dir).map (Entry.relist (·.filter (· != child)))
      else s.at? j := by
  rw [unlink, hp, at?_modify]
  simp only [at?_modify, if_neg (Ne.symm hne)]

@[simp] theorem link_cwd : (s.link dir child).cwd = s.cwd := by simp [link]

@[simp] theorem link_home : (s.link dir child).home = s.home := by simp [link]

@[simp] theorem link_free : (s.link dir child).free = s.free := by simp [link]

@[simp] theorem link_size : (s.link dir child).slots.size = s.slots.size := by simp [link]

@[simp] theorem unlink_cwd : (s.unlink child).cwd = s.cwd := by
  unfold unlink
  split <;> simp

@[simp] theorem unlink_home : (s.unlink child).home = s.home := by
  unfold unlink
  split <;> simp

@[simp] theorem unlink_free : (s.unlink child).free = s.free := by
  unfold unlink
  split <;> simp

@[simp] theorem unlink_size : (s.unlink child).slots.size = s.slots.size := by
  unfold unlink
  split <;> simp

end Store
end PocketTerminal.Files
