import PocketTerminal.Proofs.Files.TreeSlots

/-! # Listing entries and striking them off

Each change of a listing keeps the forest: a fresh or an unlisted entry is loose until it
is listed, an entry struck off takes the tree below it along, and giving back all of that
tree's slots leaves the rest as it was. -/
namespace PocketTerminal.Files

/-- What a forest knows of an entry: all but its text and its page section. -/
def Entry.shape (e : Entry) : String × Option Slot × Bool × List Slot :=
  (e.name, e.parent, e.isDirectory, e.children)

namespace Store

variable {s t : Store} {i j dir child : Slot} {n : Nat} {loose : Option Slot}

theorem ne_of_not_within (h : ¬ s.Within i j) : i ≠ j := fun he => h (he ▸ .refl i)

/-- A chain of parents carries over to a store that has the same links along it. -/
theorem Depth.transfer {P : Slot → Prop} (h : s.Depth i n) (hi : P i)
    (hlive : ∀ j, P j → s.Live j → t.Live j)
    (hlink : ∀ j d, P j → s.parent? j = some d → P d ∧ t.parent? j = some d)
    (htop : ∀ j, P j → s.Live j → s.parent? j = none → t.parent? j = none) : t.Depth i n := by
  induction h with
  | top hl hp => exact .top (hlive _ hi hl) (htop _ hi hl hp)
  | step hp _ ih =>
    obtain ⟨hd, hp'⟩ := hlink _ _ hi hp
    exact .step hp' (ih hd)

theorem Depth.of_parent_eq (h : s.Depth i n) (hlive : ∀ j, s.Live j → t.Live j)
    (hparent : ∀ j, s.Live j → t.parent? j = s.parent? j) : t.Depth i n :=
  h.transfer (P := fun _ => True) trivial (fun j _ => hlive j)
    (fun j _ _ hp => ⟨trivial, (hparent j (live_of_parent? hp)).trans hp⟩)
    (fun j _ hl hp => (hparent j hl).trans hp)

theorem Before.of_name_eq (h : s.Before i j) (hi : t.name? i = s.name? i)
    (hj : t.name? j = s.name? j) : t.Before i j := by
  obtain ⟨a, b, ha, hb, hlt⟩ := h
  exact ⟨a, b, hi.trans ha, hj.trans hb, hlt⟩

/-- Entries may change whatever a forest does not look at. -/
theorem Forest.of_shape_eq (h : s.Forest loose) (hsize : t.slots.size = s.slots.size)
    (hfree : t.free = s.free) (hshape : ∀ i, (t.at? i).map Entry.shape = (s.at? i).map Entry.shape) :
    t.Forest loose := by
  have hread {β : Type} (read : Option Entry → β)
      (hr : ∀ e e' : Entry, e.shape = e'.shape → read (some e) = read (some e')) (i : Slot) :
      read (t.at? i) = read (s.at? i) := by
    have hi := hshape i
    cases ht : t.at? i <;> cases hs : s.at? i <;> simp only [ht, hs, Option.map_none,
      Option.map_some, reduceCtorEq, Option.some.injEq] at hi
    · rfl
    · exact hr _ _ hi
  have hnone (i : Slot) : t.at? i = none ↔ s.at? i = none := by
    rw [← Option.isNone_iff_eq_none, hread Option.isNone (fun _ _ _ => rfl), Option.isNone_iff_eq_none]
  have hlive (i : Slot) : t.Live i ↔ s.Live i := by
    rw [← not_iff_not, not_live_iff, not_live_iff, hnone]
  have hname (i : Slot) : t.name? i = s.name? i :=
    hread (Option.map Entry.name) (fun e e' he => congrArg some (congrArg Prod.fst he)) i
  have hparent (i : Slot) : t.parent? i = s.parent? i :=
    hread (Option.bind · Entry.parent) (fun e e' he => congrArg (·.2.1) he) i
  have hchildren (i : Slot) : t.children i = s.children i :=
    hread (fun o => (o.map Entry.children).getD []) (fun e e' he => congrArg (·.2.2.2) he) i
  have hdirectory (i : Slot) : t.isDirectory i = s.isDirectory i :=
    hread (Option.any Entry.isDirectory) (fun e e' he => congrArg (·.2.2.1) he) i
  exact {
    free_nodup := hfree ▸ h.free_nodup
    mem_free := fun {i} => by rw [hfree, hsize, hnone i]; exact h.mem_free
    root_directory := (hdirectory root).trans h.root_directory
    root_top := (hparent root).trans h.root_top
    loose_top := fun hi => by rw [hlive, hparent]; exact h.loose_top hi
    eq_of_top := fun hl hp => h.eq_of_top ((hlive _).mp hl) ((hparent _).symm.trans hp)
    mem_children := fun {dir i} => by rw [hchildren dir, hparent i]; exact h.mem_children
    sorted := fun dir => by
      rw [hchildren]
      exact (h.sorted dir).imp fun hb => hb.of_name_eq (hname _) (hname _)
    proper := fun hi hn => h.proper hi ((hname _).symm.trans hn)
    grounded := fun hl => by
      obtain ⟨n, hn⟩ := h.grounded ((hlive _).mp hl)
      exact ⟨n, hn.of_parent_eq (fun j => (hlive j).mpr) fun j _ => hparent j⟩ }

theorem Forest.free_lt (h : s.Forest loose) : ∀ k ∈ s.free, k < s.slots.size :=
  fun _ hk => (h.mem_free.mp hk).1

theorem alloc_slot_empty (h : s.Forest loose) (e : Entry) : s.at? (s.alloc e).1 = none := by
  unfold alloc
  split
  · next slot free hfree => exact (h.mem_free.mp (by simp [hfree])).2
  · unfold at?
    rw [Array.getElem?_eq_none le_rfl]
    rfl

theorem alloc_free_nodup (h : s.Forest loose) (e : Entry) : (s.alloc e).2.free.Nodup := by
  have hnodup := h.free_nodup
  unfold alloc
  split
  · next slot free hfree =>
    rw [hfree] at hnodup
    exact hnodup.of_cons
  · exact hnodup

theorem mem_alloc_free (h : s.Forest loose) (e : Entry) :
    i ∈ (s.alloc e).2.free ↔ i < (s.alloc e).2.slots.size ∧ (s.alloc e).2.at? i = none := by
  rw [at?_alloc e h.free_lt]
  have hmem := h.mem_free (i := i)
  have hnodup := h.free_nodup
  unfold alloc
  split
  · next slot free hfree =>
    rw [hfree, List.nodup_cons] at hnodup
    rw [hfree, List.mem_cons] at hmem
    simp only [Array.size_setIfInBounds]
    by_cases hi : i = slot
    · subst hi
      simp [hnodup.1]
    · simpa [hi] using hmem
  · simp only [Array.size_push]
    by_cases hi : i = s.slots.size
    · subst hi
      simp [hmem]
    · rw [hmem, if_neg hi]
      refine and_congr_left fun _ => ⟨Nat.lt_succ_of_lt, fun hlt => ?_⟩
      exact lt_of_le_of_ne (Nat.lt_succ_iff.mp hlt) hi

section Alloc

variable {e : Entry} (h : s.Forest loose)
include h

theorem Forest.not_live_alloc (e : Entry) : ¬ s.Live (s.alloc e).1 :=
  not_live_iff.mpr (alloc_slot_empty h e)

theorem Forest.at?_alloc_new (e : Entry) : (s.alloc e).2.at? (s.alloc e).1 = some e := by
  rw [at?_alloc e h.free_lt, if_pos rfl]

theorem Forest.at?_alloc_old (e : Entry) (hj : j ≠ (s.alloc e).1) :
    (s.alloc e).2.at? j = s.at? j := by
  rw [at?_alloc e h.free_lt, if_neg hj]

theorem Forest.live_alloc_iff : (s.alloc e).2.Live j ↔ j = (s.alloc e).1 ∨ s.Live j := by
  by_cases hj : j = (s.alloc e).1
  · simp [Live, hj, h.at?_alloc_new]
  · simp [Live, hj, h.at?_alloc_old e hj]

theorem Forest.name?_alloc_old (e : Entry) (hj : j ≠ (s.alloc e).1) :
    (s.alloc e).2.name? j = s.name? j :=
  congrArg (Option.map Entry.name) (h.at?_alloc_old e hj)

theorem Forest.parent?_alloc (hparent : e.parent = none) (j : Slot) :
    (s.alloc e).2.parent? j = s.parent? j := by
  unfold parent?
  by_cases hj : j = (s.alloc e).1
  · rw [hj, h.at?_alloc_new, alloc_slot_empty h e]
    exact hparent
  · rw [h.at?_alloc_old e hj]

theorem Forest.children_alloc (hchildren : e.children = []) (j : Slot) :
    (s.alloc e).2.children j = s.children j := by
  unfold children
  by_cases hj : j = (s.alloc e).1
  · rw [hj, h.at?_alloc_new, alloc_slot_empty h e]
    exact hchildren
  · rw [h.at?_alloc_old e hj]

theorem Forest.sorted_alloc (hchildren : e.children = []) (dir : Slot) :
    ((s.alloc e).2.children dir).Pairwise (s.alloc e).2.Before := by
  rw [h.children_alloc hchildren]
  refine (h.sorted dir).imp_of_mem fun ha hb hab => ?_
  have hne {k : Slot} (hk : k ∈ s.children dir) : k ≠ (s.alloc e).1 :=
    fun he => h.not_live_alloc e (he ▸ h.live_of_mem_children hk)
  exact hab.of_name_eq (h.name?_alloc_old e (hne ha)) (h.name?_alloc_old e (hne hb))

theorem Forest.grounded_alloc (hparent : e.parent = none) (hl : (s.alloc e).2.Live i) :
    ∃ n, (s.alloc e).2.Depth i n := by
  rcases h.live_alloc_iff.mp hl with rfl | hl'
  · refine ⟨0, .top hl ?_⟩
    rw [h.parent?_alloc hparent, parent?, alloc_slot_empty h e]
    rfl
  · obtain ⟨n, hn⟩ := h.grounded hl'
    refine ⟨n, hn.of_parent_eq (fun j hj => ?_) fun j _ => h.parent?_alloc hparent j⟩
    exact h.live_alloc_iff.mpr (.inr hj)

end Alloc

/-- An entry in a fresh slot is loose. -/
theorem Forest.alloc (h : s.Forest none) {e : Entry} (hparent : e.parent = none)
    (hchildren : e.children = []) (hname : Path.ProperName e.name) :
    (s.alloc e).2.Forest (some (s.alloc e).1) where
  free_nodup := alloc_free_nodup h e
  mem_free := mem_alloc_free h e
  root_directory := by
    have hdirectory := h.root_directory
    have hroot : root ≠ (s.alloc e).1 := fun he => h.not_live_alloc e (he ▸ h.root_live)
    rwa [isDirectory, h.at?_alloc_old e hroot]
  root_top := (h.parent?_alloc hparent root).trans h.root_top
  loose_top := by
    rintro i ⟨⟩
    refine ⟨fun he => h.not_live_alloc e (he ▸ h.root_live), ⟨e, h.at?_alloc_new e⟩, ?_⟩
    rw [parent?, h.at?_alloc_new]
    exact hparent
  eq_of_top {i} hl hp := by
    rcases h.live_alloc_iff.mp hl with rfl | hl
    · exact .inr rfl
    · rw [h.parent?_alloc hparent] at hp
      exact .inl ((h.eq_of_top hl hp).resolve_right (by simp))
  mem_children {dir i} := by
    rw [h.children_alloc hchildren, h.parent?_alloc hparent]
    exact h.mem_children
  sorted := h.sorted_alloc hchildren
  proper {i name} hi hn := by
    by_cases hnew : i = (s.alloc e).1
    · have he : e.name = name := by simpa [name?, hnew, h.at?_alloc_new] using hn
      exact he ▸ hname
    · exact h.proper hi ((h.name?_alloc_old e hnew).symm.trans hn)
  grounded := h.grounded_alloc hparent

theorem mem_placeByName {name : String} {others : List Slot} :
    i ∈ s.placeByName name child others ↔ i = child ∨ i ∈ others := by
  have hsplit : i ∈ others ↔ i ∈ others.takeWhile (s.isBefore name) ++ others.dropWhile (s.isBefore name) := by
    rw [List.takeWhile_append_dropWhile]
  rw [hsplit, placeByName]
  simp only [List.mem_append, List.mem_cons]
  tauto

theorem isBefore_iff {name : String} : s.isBefore name i = true ↔ ∃ a, s.name? i = some a ∧ a < name := by
  simp [isBefore, Option.any_eq_true]

theorem placeByName_pairwise {name : String} {others : List Slot} (h : others.Pairwise s.Before)
    (hlive : ∀ i ∈ others, s.Live i) (hchild : s.name? child = some name)
    (hne : ∀ i ∈ others, s.name? i ≠ some name) :
    (s.placeByName name child others).Pairwise s.Before := by
  induction others with
  | nil => simp [placeByName]
  | cons i rest ih =>
    obtain ⟨hi, hrest⟩ := List.pairwise_cons.mp h
    have ih := ih hrest (fun j hj => hlive j (List.mem_cons_of_mem _ hj))
      fun j hj => hne j (List.mem_cons_of_mem _ hj)
    unfold placeByName at ih ⊢
    by_cases hb : s.isBefore name i = true
    · rw [List.takeWhile_cons_of_pos hb, List.dropWhile_cons_of_pos hb, List.cons_append]
      refine List.pairwise_cons.mpr ⟨fun j hj => ?_, ih⟩
      rcases mem_placeByName.mp hj with rfl | hj
      · obtain ⟨a, ha, hlt⟩ := isBefore_iff.mp hb
        exact ⟨a, name, ha, hchild, hlt⟩
      · exact hi j hj
    · rw [List.takeWhile_cons_of_neg hb, List.dropWhile_cons_of_neg hb, List.nil_append]
      obtain ⟨a, ha⟩ := (hlive i List.mem_cons_self).name?
      have hlt : name < a := by
        have hle : ¬ a < name := fun hlt => hb (isBefore_iff.mpr ⟨a, ha, hlt⟩)
        by_contra hge
        have he : a = name := Std.le_antisymm (Std.not_lt.mp hge) (Std.not_lt.mp hle)
        exact hne i List.mem_cons_self (he ▸ ha)
      refine List.pairwise_cons.mpr ⟨fun j hj => ?_, h⟩
      rcases List.mem_cons.mp hj with rfl | hj
      · exact ⟨name, a, hchild, ha, hlt⟩
      · obtain ⟨b, c, hb, hc, hbc⟩ := hi j hj
        rw [ha] at hb
        cases hb
        exact ⟨name, c, hchild, hc, String.lt_trans hlt hbc⟩

section Link

variable (hdir : s.isDirectory dir = true) (hchild : s.Live child) (hne : dir ≠ child)
include hdir hchild hne

theorem live_link (i : Slot) : (s.link dir child).Live i ↔ s.Live i := by
  rw [← not_iff_not, not_live_iff, not_live_iff, at?_link hne]
  obtain ⟨d, hd, _⟩ := isDirectory_iff.mp hdir
  obtain ⟨e, he⟩ := hchild
  by_cases hi : i = child
  · subst hi
    simp [he]
  · by_cases hid : i = dir
    · subst hid
      simp [hi, hd]
    · simp [hi, hid]

theorem name?_link (i : Slot) : (s.link dir child).name? i = s.name? i := by
  unfold name?
  rw [at?_link hne]
  by_cases hi : i = child
  · subst hi
    cases h : s.at? i <;> simp
  · by_cases hid : i = dir
    · subst hid
      cases h : s.at? i <;> simp [hi]
    · simp [hi, hid]

theorem isDirectory_link (i : Slot) : (s.link dir child).isDirectory i = s.isDirectory i := by
  unfold isDirectory
  rw [at?_link hne]
  by_cases hi : i = child
  · subst hi
    cases h : s.at? i <;> simp [Entry.isDirectory]
  · by_cases hid : i = dir
    · subst hid
      cases h : s.at? i <;> simp [hi]
    · simp [hi, hid]

theorem parent?_link (i : Slot) :
    (s.link dir child).parent? i = if i = child then some dir else s.parent? i := by
  unfold parent?
  rw [at?_link hne]
  obtain ⟨e, he⟩ := hchild
  by_cases hi : i = child
  · subst hi
    simp [he]
  · by_cases hid : i = dir
    · subst hid
      cases h : s.at? i <;> simp [hi]
    · simp [hi, hid]

theorem children_link (i : Slot) :
    (s.link dir child).children i =
      if i = dir then s.placeByName ((s.name? child).getD "") child (s.children dir)
      else s.children i := by
  unfold children
  rw [at?_link hne]
  obtain ⟨d, hd, hd'⟩ := isDirectory_iff.mp hdir
  by_cases hi : i = child
  · subst hi
    have hid : i ≠ dir := Ne.symm hne
    cases h : s.at? i <;> simp [hid, Entry.children]
  · by_cases hid : i = dir
    · subst hid
      simp [hi, hd, Entry.relist_children hd']
    · simp [hi, hid]

end Link

section Loose

variable {d : Slot} (h : s.Forest (some child)) (hdir : s.isDirectory dir = true)
  (hout : ¬ s.Within dir child)
include h hdir hout

theorem Forest.live_link_iff : (s.link dir child).Live i ↔ s.Live i := by
  obtain ⟨-, hchild, -⟩ := h.loose_top rfl
  exact live_link hdir hchild (ne_of_not_within hout) i

theorem Forest.name?_link_eq (i : Slot) : (s.link dir child).name? i = s.name? i := by
  obtain ⟨-, hchild, -⟩ := h.loose_top rfl
  exact name?_link hdir hchild (ne_of_not_within hout) i

theorem Forest.parent?_link_loose : (s.link dir child).parent? child = some dir := by
  obtain ⟨-, hchild, -⟩ := h.loose_top rfl
  rw [parent?_link hdir hchild (ne_of_not_within hout), if_pos rfl]

theorem Forest.parent?_link_rest (hi : i ≠ child) : (s.link dir child).parent? i = s.parent? i := by
  obtain ⟨-, hchild, -⟩ := h.loose_top rfl
  rw [parent?_link hdir hchild (ne_of_not_within hout), if_neg hi]

theorem Forest.eq_root_of_top_link (hl : (s.link dir child).Live i)
    (hp : (s.link dir child).parent? i = none) : i = root := by
  have hi : i ≠ child := by
    rintro rfl
    rw [h.parent?_link_loose hdir hout] at hp
    cases hp
  rw [h.parent?_link_rest hdir hout hi] at hp
  rcases h.eq_of_top ((h.live_link_iff hdir hout).mp hl) hp with hroot | hloose
  · exact hroot
  · exact absurd (Option.some.inj hloose).symm hi

theorem Forest.mem_children_link :
    i ∈ (s.link dir child).children d ↔ (s.link dir child).parent? i = some d := by
  obtain ⟨-, hchild, htop⟩ := h.loose_top rfl
  rw [children_link hdir hchild (ne_of_not_within hout)]
  by_cases hi : i = child
  · subst hi
    rw [h.parent?_link_loose hdir hout]
    split
    · next hd => simp [mem_placeByName, hd]
    · next hd =>
      rw [h.mem_children, htop]
      simpa using Ne.symm hd
  · rw [h.parent?_link_rest hdir hout hi, ← h.mem_children]
    split
    · next hd => simp [mem_placeByName, hi, hd]
    · rfl

theorem Forest.sorted_link (hname : ∀ i ∈ s.children dir, s.name? i ≠ s.name? child) (d : Slot) :
    ((s.link dir child).children d).Pairwise (s.link dir child).Before := by
  obtain ⟨-, hchild, -⟩ := h.loose_top rfl
  obtain ⟨name, hn⟩ := hchild.name?
  rw [children_link hdir hchild (ne_of_not_within hout)]
  have hnames := h.name?_link_eq hdir hout
  refine List.Pairwise.imp (R := s.Before) (fun hb => hb.of_name_eq (hnames _) (hnames _)) ?_
  split
  · rw [hn]
    refine placeByName_pairwise (h.sorted dir) (fun i => h.live_of_mem_children) hn ?_
    rwa [hn] at hname
  · exact h.sorted d

/-- Outside the tree below the entry nothing gets deeper. -/
theorem Forest.depth_link_outside (hd : s.Depth i n) (hi : ¬ s.Within i child) :
    (s.link dir child).Depth i n := by
  have hne {j : Slot} (hj : ¬ s.Within j child) : j ≠ child := fun he => hj (he ▸ Within.refl j)
  refine hd.transfer (P := fun j => ¬ s.Within j child) hi ?_ ?_ ?_
  · intro j _ hl
    exact (h.live_link_iff hdir hout).mpr hl
  · intro j d hj hp
    exact ⟨fun hw => hj (.up hp hw), by rw [h.parent?_link_rest hdir hout (hne hj), hp]⟩
  · intro j hj _ hp
    rw [h.parent?_link_rest hdir hout (hne hj), hp]

/-- Below the entry everything is as much deeper as the entry is. -/
theorem Forest.grounded_link (hl : (s.link dir child).Live i) :
    ∃ n, (s.link dir child).Depth i n := by
  obtain ⟨-, -, htop⟩ := h.loose_top rfl
  obtain ⟨k, hk⟩ := h.grounded (live_of_isDirectory hdir)
  have hlisted : (s.link dir child).Depth child (k + 1) :=
    .step (h.parent?_link_loose hdir hout) (h.depth_link_outside hdir hout hk hout)
  obtain ⟨n, hd⟩ := h.grounded ((h.live_link_iff hdir hout).mp hl)
  clear hl
  -- By induction on the chain that ended before: at the root, or at the entry, where it now goes on.
  induction hd with
  | @top i hl hp =>
    by_cases hi : i = child
    · exact ⟨k + 1, hi ▸ hlisted⟩
    · refine ⟨0, .top ((h.live_link_iff hdir hout).mpr hl) ?_⟩
      rw [h.parent?_link_rest hdir hout hi, hp]
  | @step i d n hp _ ih =>
    obtain ⟨m, hm⟩ := ih
    have hi : i ≠ child := by
      rintro rfl
      rw [htop] at hp
      cases hp
    exact ⟨m + 1, .step (by rw [h.parent?_link_rest hdir hout hi, hp]) hm⟩

/-- A loose entry listed outside the tree below it is loose no more. -/
theorem Forest.link (hname : ∀ i ∈ s.children dir, s.name? i ≠ s.name? child) :
    (s.link dir child).Forest none := by
  obtain ⟨hroot, hchild, -⟩ := h.loose_top rfl
  exact {
    free_nodup := by simpa using h.free_nodup
    mem_free := fun {i} => by
      rw [link_free, link_size, h.mem_free, ← not_live_iff, ← not_live_iff,
        h.live_link_iff hdir hout]
    root_directory :=
      (isDirectory_link hdir hchild (ne_of_not_within hout) root).trans h.root_directory
    root_top := by rw [h.parent?_link_rest hdir hout (Ne.symm hroot), h.root_top]
    loose_top := fun hi => by cases hi
    eq_of_top := fun hl hp => .inl (h.eq_root_of_top_link hdir hout hl hp)
    mem_children := h.mem_children_link hdir hout
    sorted := h.sorted_link hdir hout hname
    proper := fun {i name} hi hm => h.proper hi ((h.name?_link_eq hdir hout i).symm.trans hm)
    grounded := h.grounded_link hdir hout }

end Loose

end Store
end PocketTerminal.Files
