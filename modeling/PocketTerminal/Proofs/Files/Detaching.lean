import PocketTerminal.Proofs.Files.Listing

/-! # Cutting trees out of a forest

An entry struck off is loose, with the tree below it untouched. Giving back the slots of
that tree, each of them live and none of them twice, leaves a forest without it. -/
namespace PocketTerminal.Files.Store

variable {s u : Store} {i j dir child : Slot} {loose : Option Slot}

/-- A chain of parents that ends at its first meeting with its top needs no link above. -/
theorem Within.transfer {top : Slot} (h : s.Within j top)
    (hp : ∀ i d, i ≠ top → s.parent? i = some d → u.parent? i = some d) : u.Within j top := by
  induction h with
  | refl i => exact .refl i
  | @up i d top hlink _ ih =>
    by_cases hi : i = top
    · exact hi ▸ .refl i
    · exact .up (hp i d hi hlink) (ih hp)

namespace Forest

/-- Below the root every entry of a forest has a directory. -/
theorem exists_parent (h : s.Forest none) (hl : s.Live i) (hne : i ≠ root) :
    ∃ dir, s.parent? i = some dir := by
  cases hp : s.parent? i with
  | some dir => exact ⟨dir, rfl⟩
  | none => exact absurd ((h.eq_of_top hl hp).resolve_right (by simp)) hne

theorem not_within_root (h : s.Forest loose) (hne : i ≠ root) : ¬ s.Within root i := by
  intro hw
  cases hw with
  | refl _ => exact hne rfl
  | up hp _ =>
    rw [h.root_top] at hp
    cases hp

end Forest

section Unlink

variable (h : s.Forest none) (hl : s.Live child) (hne : child ≠ root)
include h hl hne

theorem at?_unlink_of_forest : ∃ dir, s.parent? child = some dir ∧ dir ≠ child ∧
    ∀ i, (s.unlink child).at? i =
      if i = child then (s.at? child).map fun e => { e with parent := none }
      else if i = dir then (s.at? dir).map (Entry.relist (·.filter (· != child)))
      else s.at? i := by
  obtain ⟨dir, hp⟩ := h.exists_parent hl hne
  exact ⟨dir, hp, h.ne_of_parent hp, fun i => at?_unlink hp (h.ne_of_parent hp)⟩

theorem live_unlink (i : Slot) : (s.unlink child).Live i ↔ s.Live i := by
  obtain ⟨dir, hp, hd, hat⟩ := at?_unlink_of_forest h hl hne
  rw [← not_iff_not, not_live_iff, not_live_iff, hat]
  by_cases hi : i = child
  · subst hi
    simp
  · by_cases hid : i = dir
    · subst hid
      simp [hi]
    · simp [hi, hid]

theorem name?_unlink (i : Slot) : (s.unlink child).name? i = s.name? i := by
  obtain ⟨dir, hp, hd, hat⟩ := at?_unlink_of_forest h hl hne
  unfold name?
  rw [hat]
  by_cases hi : i = child
  · subst hi
    cases s.at? i <;> simp
  · by_cases hid : i = dir
    · subst hid
      cases s.at? i <;> simp [hi]
    · simp [hi, hid]

theorem isDirectory_unlink (i : Slot) : (s.unlink child).isDirectory i = s.isDirectory i := by
  obtain ⟨dir, hp, hd, hat⟩ := at?_unlink_of_forest h hl hne
  unfold isDirectory
  rw [hat]
  by_cases hi : i = child
  · subst hi
    cases s.at? i <;> simp [Entry.isDirectory]
  · by_cases hid : i = dir
    · subst hid
      cases s.at? i <;> simp [hi]
    · simp [hi, hid]

theorem parent?_unlink (i : Slot) :
    (s.unlink child).parent? i = if i = child then none else s.parent? i := by
  obtain ⟨dir, hp, hd, hat⟩ := at?_unlink_of_forest h hl hne
  unfold parent?
  rw [hat]
  by_cases hi : i = child
  · subst hi
    cases s.at? i <;> simp
  · by_cases hid : i = dir
    · subst hid
      cases s.at? i <;> simp [hi]
    · simp [hi, hid]

/-- No listing but the parent's has the entry, so all may be said to lose it. -/
theorem children_unlink (i : Slot) :
    (s.unlink child).children i = (s.children i).filter (· != child) := by
  obtain ⟨dir, hp, hd, hat⟩ := at?_unlink_of_forest h hl hne
  have hother {k : Slot} (hk : k ≠ dir) : (s.children k).filter (· != child) = s.children k := by
    refine List.filter_eq_self.mpr fun c hc => ?_
    simp only [bne_iff_ne, ne_eq]
    rintro rfl
    rw [h.mem_children, hp] at hc
    exact hk (Option.some.inj hc).symm
  obtain ⟨d, hd', hdir⟩ := isDirectory_iff.mp (h.directory_of_parent hp)
  by_cases hid : i = dir
  · subst hid
    rw [children, hat, if_neg hd, if_pos rfl, hd']
    simp [Entry.relist_children hdir, children_eq hd']
  · rw [hother hid]
    unfold children
    rw [hat]
    by_cases hi : i = child
    · subst hi
      cases s.at? i <;> simp [Entry.children]
    · simp [hi, hid]

theorem Forest.unlink : (s.unlink child).Forest (some child) := by
  have hlive := live_unlink h hl hne
  have hparents := parent?_unlink h hl hne
  have hlistings := children_unlink h hl hne
  have hnames := name?_unlink h hl hne
  exact {
    free_nodup := by simpa using h.free_nodup
    mem_free := fun {i} => by
      rw [unlink_free, unlink_size, h.mem_free, ← not_live_iff, ← not_live_iff, hlive]
    root_directory := (isDirectory_unlink h hl hne root).trans h.root_directory
    root_top := by rw [hparents, if_neg (Ne.symm hne), h.root_top]
    loose_top := by
      rintro i ⟨⟩
      exact ⟨hne, (hlive _).mpr hl, by rw [hparents, if_pos rfl]⟩
    eq_of_top := fun {i} hi hp => by
      by_cases hic : i = child
      · exact .inr (congrArg some hic.symm)
      · rw [hparents, if_neg hic] at hp
        exact .inl ((h.eq_of_top ((hlive i).mp hi) hp).resolve_right (by simp))
    mem_children := fun {d i} => by
      rw [hlistings d, hparents i, List.mem_filter, h.mem_children]
      by_cases hi : i = child <;> simp [hi]
    sorted := fun d => by
      rw [hlistings]
      exact ((h.sorted d).imp fun hb => hb.of_name_eq (hnames _) (hnames _)).filter _
    proper := fun {i name} hi hn => h.proper hi ((hnames i).symm.trans hn)
    grounded := fun {i} hi => by
      obtain ⟨n, hd⟩ := h.grounded ((hlive i).mp hi)
      clear hi
      induction hd with
      | @top i hi hp =>
        refine ⟨0, .top ((hlive i).mpr hi) ?_⟩
        rw [hparents, hp, ite_self]
      | @step i d n hp _ ih =>
        obtain ⟨m, hm⟩ := ih
        by_cases hic : i = child
        · exact ⟨0, .top ((hlive i).mpr (live_of_parent? hp)) (by rw [hparents, if_pos hic])⟩
        · exact ⟨m + 1, .step (by rw [hparents, if_neg hic, hp]) hm⟩ }

/-- The tree below an entry that is struck off stays as it was. -/
theorem within_unlink_iff : (s.unlink child).Within j child ↔ s.Within j child := by
  have hparents := parent?_unlink h hl hne
  constructor <;> intro hw
  · refine hw.transfer fun i d hi hp => ?_
    rwa [hparents, if_neg hi] at hp
  · refine hw.transfer fun i d hi hp => ?_
    rwa [hparents, if_neg hi]

end Unlink

section Release

variable {given : List Slot} {d : Slot} (h : u.Forest (some child))
  (hgiven : ∀ j, j ∈ given ↔ u.Within j child)
include h hgiven

theorem live_of_given (hj : j ∈ given) : u.Live j := by
  obtain ⟨-, hchild, -⟩ := h.loose_top rfl
  exact ((hgiven j).mp hj).live hchild

theorem at?_release_all (j : Slot) :
    (given.foldl Store.release u).at? j = if j ∈ given then none else u.at? j := by
  apply at?_foldl_release
  intro k hk
  exact (live_of_given h hgiven hk).lt_size

theorem at?_release_rest (hj : j ∉ given) : (given.foldl Store.release u).at? j = u.at? j := by
  rw [at?_release_all h hgiven, if_neg hj]

theorem live_release_iff :
    (given.foldl Store.release u).Live j ↔ j ∉ given ∧ u.Live j := by
  by_cases hj : j ∈ given <;> simp [Live, at?_release_all h hgiven, hj]

theorem parent?_release_rest (hj : j ∉ given) :
    (given.foldl Store.release u).parent? j = u.parent? j :=
  congrArg (Option.bind · Entry.parent) (at?_release_rest h hgiven hj)

theorem name?_release_rest (hj : j ∉ given) : (given.foldl Store.release u).name? j = u.name? j :=
  congrArg (Option.map Entry.name) (at?_release_rest h hgiven hj)

theorem children_release_all (j : Slot) :
    (given.foldl Store.release u).children j = if j ∈ given then [] else u.children j := by
  split
  · next hj =>
    apply children_of_not_live
    rw [at?_release_all h hgiven, if_pos hj]
  · next hj =>
    rw [children, at?_release_rest h hgiven hj]
    rfl

theorem root_notMem_given : root ∉ given := by
  intro hroot
  obtain ⟨hne, -, -⟩ := h.loose_top rfl
  exact h.not_within_root hne ((hgiven root).mp hroot)

/-- An entry is given back with its parent and never without. -/
theorem given_iff_of_parent? (hp : u.parent? j = some d) : j ∈ given ↔ d ∈ given := by
  obtain ⟨-, -, htop⟩ := h.loose_top rfl
  rw [hgiven, hgiven]
  constructor
  · intro hw
    cases hw with
    | refl _ => rw [htop] at hp; cases hp
    | up hp' hw =>
      rw [hp] at hp'
      cases hp'
      exact hw
  · intro hw
    exact .up hp hw

theorem free_nodup_release (hnodup : given.Nodup) : (given.foldl Store.release u).free.Nodup := by
  rw [foldl_release_free]
  refine List.nodup_append'.mpr ⟨List.nodup_reverse.mpr hnodup, h.free_nodup, ?_⟩
  refine List.disjoint_left.mpr fun j hj hf => ?_
  have hl := live_of_given h hgiven (List.mem_reverse.mp hj)
  exact not_live_iff.mpr (h.mem_free.mp hf).2 hl

theorem mem_free_release : i ∈ (given.foldl Store.release u).free ↔
    i < (given.foldl Store.release u).slots.size ∧ (given.foldl Store.release u).at? i = none := by
  rw [foldl_release_free, foldl_release_size, List.mem_append, List.mem_reverse, h.mem_free,
    at?_release_all h hgiven]
  by_cases hi : i ∈ given
  · simp [hi, (live_of_given h hgiven hi).lt_size]
  · simp [hi]

theorem mem_children_release : i ∈ (given.foldl Store.release u).children d ↔
    (given.foldl Store.release u).parent? i = some d := by
  rw [children_release_all h hgiven]
  constructor
  · intro hi
    split at hi
    · cases hi
    · next hd =>
      have hp := h.mem_children.mp hi
      have hig : i ∉ given := fun hig => hd ((given_iff_of_parent? h hgiven hp).mp hig)
      rw [parent?_release_rest h hgiven hig, hp]
  · intro hp
    have hig := ((live_release_iff h hgiven).mp (live_of_parent? hp)).1
    rw [parent?_release_rest h hgiven hig] at hp
    rw [if_neg (fun hd => hig ((given_iff_of_parent? h hgiven hp).mpr hd))]
    exact h.mem_children.mpr hp

theorem sorted_release (d : Slot) : ((given.foldl Store.release u).children d).Pairwise
    (given.foldl Store.release u).Before := by
  rw [children_release_all h hgiven]
  split
  · exact List.Pairwise.nil
  · next hd =>
    have hin {k : Slot} (hk : k ∈ u.children d) : k ∉ given := fun hkg =>
      hd ((given_iff_of_parent? h hgiven (h.mem_children.mp hk)).mp hkg)
    refine (h.sorted d).imp_of_mem fun ha hb hab => ?_
    exact hab.of_name_eq (name?_release_rest h hgiven (hin ha)) (name?_release_rest h hgiven (hin hb))

theorem grounded_release (hi : (given.foldl Store.release u).Live i) :
    ∃ n, (given.foldl Store.release u).Depth i n := by
  obtain ⟨hig, hl⟩ := (live_release_iff h hgiven).mp hi
  obtain ⟨n, hn⟩ := h.grounded hl
  refine ⟨n, hn.transfer (P := (· ∉ given)) hig ?_ ?_ ?_⟩
  · intro j hj hl
    exact (live_release_iff h hgiven).mpr ⟨hj, hl⟩
  · intro j d hj hp
    have hd : d ∉ given := fun hd => hj ((given_iff_of_parent? h hgiven hp).mpr hd)
    exact ⟨hd, by rw [parent?_release_rest h hgiven hj, hp]⟩
  · intro j hj _ hp
    rw [parent?_release_rest h hgiven hj, hp]

/-- The slots of the tree below a loose entry, given back once each. -/
theorem Forest.release (hnodup : given.Nodup) : (given.foldl Store.release u).Forest none where
  free_nodup := free_nodup_release h hgiven hnodup
  mem_free := mem_free_release h hgiven
  root_directory := by
    have hdirectory := h.root_directory
    rwa [isDirectory, at?_release_rest h hgiven (root_notMem_given h hgiven)]
  root_top := (parent?_release_rest h hgiven (root_notMem_given h hgiven)).trans h.root_top
  loose_top hi := by cases hi
  eq_of_top {i} hi hp := by
    obtain ⟨hig, hl⟩ := (live_release_iff h hgiven).mp hi
    rw [parent?_release_rest h hgiven hig] at hp
    refine .inl ((h.eq_of_top hl hp).resolve_right fun he => hig ?_)
    rw [hgiven, Option.some.inj he]
    exact .refl i
  mem_children := mem_children_release h hgiven
  sorted := sorted_release h hgiven
  proper {i name} hi hn := by
    have hig := ((live_release_iff h hgiven).mp (live_of_name? hn)).1
    exact h.proper hi ((name?_release_rest h hgiven hig).symm.trans hn)
  grounded := grounded_release h hgiven

end Release

/-- A whole tree cut out and its slots given back. -/
theorem Forest.detach (h : s.Forest none) (hl : s.Live child) (hne : child ≠ root) :
    (s.detach child).Forest none := by
  refine (h.unlink hl hne).release (fun j => ?_) (h.treeSlots_nodup hl)
  rw [h.mem_treeSlots_iff hl, within_unlink_iff h hl hne]

/-- What is not part of the tree keeps its entry, but for one listing. -/
theorem at?_detach (h : s.Forest none) (hl : s.Live child)
    (hj : ¬ s.Within j child) : (s.detach child).at? j = (s.unlink child).at? j := by
  have hlt : ∀ k ∈ s.treeSlots child, k < (s.unlink child).slots.size := fun k hk => by
    rw [unlink_size]
    exact (((h.mem_treeSlots_iff hl).mp hk).live hl).lt_size
  rw [detach, at?_foldl_release hlt, if_neg]
  rwa [h.mem_treeSlots_iff hl]

/-- What was part of the tree leaves its slot empty. -/
theorem at?_detach_within (h : s.Forest none) (hl : s.Live child)
    (hj : s.Within j child) : (s.detach child).at? j = none := by
  have hlt : ∀ k ∈ s.treeSlots child, k < (s.unlink child).slots.size := fun k hk => by
    rw [unlink_size]
    exact (((h.mem_treeSlots_iff hl).mp hk).live hl).lt_size
  rw [detach, at?_foldl_release hlt, if_pos ((h.mem_treeSlots_iff hl).mpr hj)]

end PocketTerminal.Files.Store
