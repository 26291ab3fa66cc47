import PocketTerminal.Proofs.Files.Attaching

/-! # Settled stores

A settled store is a forest with nothing loose in it, whose working directory is there.
Every operation that changes a store leaves a settled one. -/
namespace PocketTerminal.Files.Store

variable {s t : Store} {i j dir child : Slot} {name : String}

/-- Directories stay directories, under their names and where they were. -/
structure Keeps (s t : Store) : Prop where
  directory : ∀ {i}, s.isDirectory i = true → t.isDirectory i = true
  name_eq : ∀ {i}, s.isDirectory i = true → t.name? i = s.name? i
  child : ∀ {dir i}, s.isDirectory i = true → i ∈ s.children dir → i ∈ t.children dir

structure Settled (s : Store) : Prop where
  forest : s.Forest none
  cwd_normal : Path.isNormal s.cwd = true
  home_normal : Path.isNormal s.home = true
  cwd_directory : s.hasDirectory s.cwd = true

theorem Keeps.refl (s : Store) : s.Keeps s := ⟨id, fun _ => rfl, fun _ => id⟩

theorem Keeps.trans {u : Store} (h : s.Keeps t) (h' : t.Keeps u) : s.Keeps u where
  directory hd := h'.directory (h.directory hd)
  name_eq hd := (h'.name_eq (h.directory hd)).trans (h.name_eq hd)
  child hd hi := h'.child (h.directory hd) (h.child hd hi)

theorem Extends.keeps {names : List String} (h : s.Extends t dir names) :
    s.Keeps t where
  directory {i} hd := by
    by_cases hid : i = dir
    · exact hid ▸ h.directory
    · rwa [isDirectory, h.keep (live_of_isDirectory hd) hid]
  name_eq hd := h.name?_eq (live_of_isDirectory hd)
  child {d i} _ hi := by
    by_cases hdd : d = dir
    · subst hdd
      exact h.children_subset hi
    · rwa [children, h.keep (live_of_isDirectory (isDirectory_of_mem_children hi)) hdd]

/-- A way down to a directory stays open when no directory on it is lost. -/
theorem Keeps.descend (h : s.Keeps t) {a b : Option Slot} (hs : s.Forest a) (ht : t.Forest b)
    {names : List String} (hd : s.descend dir names = some i) (hi : s.isDirectory i = true) :
    t.descend dir names = some i := by
  induction names generalizing dir with
  | nil => exact hd
  | cons name rest ih =>
    obtain ⟨c, hc, hrest⟩ := Option.bind_eq_some_iff.mp hd
    have hcd : s.isDirectory c = true := by
      cases rest with
      | nil =>
        cases hrest
        exact hi
      | cons next rest =>
        obtain ⟨c', hc', _⟩ := Option.bind_eq_some_iff.mp hrest
        exact isDirectory_of_mem_children (hs.find?_eq_some_iff.mp hc').1
    obtain ⟨hmem, hname⟩ := hs.find?_eq_some_iff.mp hc
    have hfind : t.find? dir name = some c :=
      ht.find?_eq_some_iff.mpr ⟨h.child hcd hmem, (h.name_eq hcd).trans hname⟩
    exact Option.bind_eq_some_iff.mpr ⟨c, hfind, ih hrest⟩

theorem hasDirectory_iff {path : String} :
    s.hasDirectory path = true ↔ ∃ i, s.lookup path = some i ∧ s.isDirectory i = true := by
  simp [hasDirectory, Option.any_eq_true]

theorem Keeps.hasDirectory (h : s.Keeps t) (hs : s.Forest none) (ht : t.Forest none) {path : String}
    (hd : s.hasDirectory path = true) : t.hasDirectory path = true := by
  obtain ⟨i, hi, hid⟩ := hasDirectory_iff.mp hd
  exact hasDirectory_iff.mpr ⟨i, h.descend hs ht hi hid, h.directory hid⟩

theorem Settled.of_keeps (h : s.Settled) (ht : t.Forest none) (hk : s.Keeps t) (hcwd : t.cwd = s.cwd)
    (hhome : t.home = s.home) : t.Settled where
  forest := ht
  cwd_normal := hcwd ▸ h.cwd_normal
  home_normal := hhome ▸ h.home_normal
  cwd_directory := by
    rw [hcwd]
    exact hk.hasDirectory h.forest ht h.cwd_directory

theorem Settled.of_extends (h : s.Settled) {names : List String} (ht : t.Forest none)
    (hext : s.Extends t dir names) : t.Settled :=
  h.of_keeps ht hext.keeps hext.cwd_eq hext.home_eq

theorem Forest.with_cwd (h : s.Forest none) (cwd : String) :
    Store.Forest { s with cwd := cwd } none :=
  h.of_shape_eq rfl rfl fun _ => rfl

theorem Forest.hasDirectory_with_cwd (h : s.Forest none) (cwd : String) {path : String}
    (hd : s.hasDirectory path = true) : Store.hasDirectory { s with cwd := cwd } path = true := by
  have hk : s.Keeps { s with cwd := cwd } := ⟨id, fun _ => rfl, fun _ => id⟩
  exact hk.hasDirectory h (h.with_cwd cwd) hd

theorem Forest.hasDirectory_root (h : s.Forest none) : s.hasDirectory "/" = true :=
  hasDirectory_iff.mpr ⟨root, Forest.lookup_root, h.root_directory⟩

theorem Settled.changeDir (h : s.Settled) (input : String) : (s.changeDir input).2.Settled := by
  unfold Store.changeDir
  dsimp only
  split
  · next hd =>
    exact ⟨h.forest.with_cwd _, Path.isNormal_resolve .., h.home_normal,
      h.forest.hasDirectory_with_cwd _ hd⟩
  · exact h

/-- A forest is settled once its working directory is looked after. -/
theorem Forest.settled_repairCwd (h : s.Forest none) (hcwd : Path.isNormal s.cwd = true)
    (hhome : Path.isNormal s.home = true) : s.repairCwd.Settled := by
  unfold repairCwd
  split
  · next hd => exact ⟨h, hcwd, hhome, hd⟩
  · split
    · next hd => exact ⟨h.with_cwd _, hhome, hhome, h.hasDirectory_with_cwd _ hd⟩
    · exact ⟨h.with_cwd _, Path.spells_root.isNormal, hhome,
        h.hasDirectory_with_cwd _ h.hasDirectory_root⟩

theorem Forest.modify (h : s.Forest none) {change : Entry → Entry}
    (hshape : ∀ e, s.at? i = some e → (change e).shape = e.shape) : (s.modify i change).Forest none := by
  refine h.of_shape_eq (modify_size change) (modify_free change) fun j => ?_
  rw [at?_modify]
  by_cases hj : j = i
  · subst hj
    cases he : s.at? j with
    | none => simp
    | some e => simp [hshape e he]
  · rw [if_neg hj]

/-- What is read of entries' shapes alone reads the same after such a change. -/
theorem read_modify {change : Entry → Entry}
    (hshape : ∀ e, s.at? i = some e → (change e).shape = e.shape) {β : Type} (read : Option Entry → β)
    (hr : ∀ e e' : Entry, e.shape = e'.shape → read (some e) = read (some e')) (j : Slot) :
    read ((s.modify i change).at? j) = read (s.at? j) := by
  rw [at?_modify]
  by_cases hj : j = i
  · subst hj
    cases he : s.at? j with
    | none => simp
    | some e => simpa using hr _ _ (hshape e he)
  · rw [if_neg hj]

theorem keeps_modify {change : Entry → Entry}
    (hshape : ∀ e, s.at? i = some e → (change e).shape = e.shape) : s.Keeps (s.modify i change) := by
  have hdirectory (j : Slot) : (s.modify i change).isDirectory j = s.isDirectory j :=
    read_modify hshape (Option.any Entry.isDirectory) (fun e e' he => congrArg (·.2.2.1) he) j
  have hchildren (j : Slot) : (s.modify i change).children j = s.children j :=
    read_modify hshape (fun o => (o.map Entry.children).getD []) (fun e e' he => congrArg (·.2.2.2) he) j
  exact {
    directory := fun hd => (hdirectory _).trans hd
    name_eq := fun {j} _ =>
      read_modify hshape (Option.map Entry.name) (fun e e' he => congrArg some (congrArg Prod.fst he)) j
    child := fun {d j} _ hj => by rwa [hchildren] }

theorem Settled.modify (h : s.Settled) {change : Entry → Entry}
    (hshape : ∀ e, s.at? i = some e → (change e).shape = e.shape) : (s.modify i change).Settled :=
  h.of_keeps (h.forest.modify hshape) (keeps_modify hshape) (modify_cwd change) (modify_home change)

/-- Making directories along a path keeps all there was, and where it succeeds with
`recursive` the path leads to a directory. -/
theorem createAlong_spec (recursive : Bool) {names : List String} (h : s.Forest none)
    (hdir : s.isDirectory dir = true) (hnames : ∀ n ∈ names, Path.ProperName n) :
    ∃ done t, createAlong recursive s dir names = (done, t) ∧ t.Forest none ∧ s.Keeps t ∧
      t.cwd = s.cwd ∧ t.home = s.home ∧
      (done = true → recursive = true → ∃ i, t.descend dir names = some i ∧ t.isDirectory i = true) := by
  induction names generalizing s dir with
  | nil => exact ⟨true, s, rfl, h, .refl s, rfl, rfl, fun _ _ => ⟨dir, rfl, hdir⟩⟩
  | cons name rest ih =>
    have hrest : ∀ n ∈ rest, Path.ProperName n := fun n hn => hnames n (List.mem_cons_of_mem _ hn)
    unfold createAlong
    cases hf : s.find? dir name with
    | some slot =>
      by_cases hd : s.isDirectory slot = true
      · by_cases hlast : (rest.isEmpty && !recursive) = true
        · refine ⟨false, s, by simp [hlast], h, .refl s, rfl, rfl, ?_⟩
          rintro ⟨⟩
        · obtain ⟨done, t, hrun, ht, hk, hcwd, hhome, hdown⟩ := ih h hd hrest
          refine ⟨done, t, by simp [hd, hlast, hrun], ht, hk, hcwd, hhome, fun hdone hrec => ?_⟩
          obtain ⟨i, hi, hid⟩ := hdown hdone hrec
          obtain ⟨hmem, hname⟩ := h.find?_eq_some_iff.mp hf
          have hfind : t.find? dir name = some slot :=
            ht.find?_eq_some_iff.mpr ⟨hk.child hd hmem, (hk.name_eq hd).trans hname⟩
          exact ⟨i, Option.bind_eq_some_iff.mpr ⟨slot, hfind, hi⟩, hid⟩
      · refine ⟨false, s, by simp [hd], h, .refl s, rfl, rfl, ?_⟩
        rintro ⟨⟩
    | none =>
      by_cases hlast : (!rest.isEmpty && !recursive) = true
      · refine ⟨false, s, by simp [hlast], h, .refl s, rfl, rfl, ?_⟩
        rintro ⟨⟩
      · obtain ⟨new, u, hinsert, hu, hnew, hat, hext⟩ :=
          insert_spec none h hdir hf (hnames name List.mem_cons_self) leaf_empty
        have hnewdir : u.isDirectory new = true := isDirectory_iff.mpr ⟨_, hat, rfl⟩
        obtain ⟨done, t, hrun, ht, hk, hcwd, hhome, hdown⟩ := ih hu hnewdir hrest
        refine ⟨done, t, by simp [hlast, hinsert, hrun], ht, hext.keeps.trans hk,
          hcwd.trans hext.cwd_eq, hhome.trans hext.home_eq, fun hdone hrec => ?_⟩
        obtain ⟨i, hi, hid⟩ := hdown hdone hrec
        have hmem : new ∈ u.children dir := hu.mem_children.mpr (parent?_eq hat)
        have hfind : t.find? dir name = some new :=
          ht.find?_eq_some_iff.mpr ⟨hk.child hnewdir hmem, (hk.name_eq hnewdir).trans (name?_eq hat)⟩
        exact ⟨i, Option.bind_eq_some_iff.mpr ⟨new, hfind, hi⟩, hid⟩

theorem createDir_spec (h : s.Forest none) (input : String) (recursive : Bool) :
    ∃ done t, s.createDir input recursive = (done, t) ∧ t.Forest none ∧ s.Keeps t ∧
      t.cwd = s.cwd ∧ t.home = s.home ∧
      (done = true → recursive = true → t.hasDirectory (s.resolve input) = true) := by
  obtain ⟨done, t, hrun, ht, hk, hcwd, hhome, hdown⟩ := createAlong_spec recursive h h.root_directory
    fun n hn => Path.properName_of_mem_components (Path.isNormal_resolve s.cwd s.home input) hn
  exact ⟨done, t, hrun, ht, hk, hcwd, hhome, fun hdone hrec => hasDirectory_iff.mpr (hdown hdone hrec)⟩

theorem Settled.createDir (h : s.Settled) (input : String) (recursive : Bool) :
    (s.createDir input recursive).2.Settled := by
  obtain ⟨done, t, hrun, ht, hk, hcwd, hhome, -⟩ := createDir_spec h.forest input recursive
  rw [hrun]
  exact h.of_keeps ht hk hcwd hhome

theorem descend_append {names : List String} :
    s.descend dir (names ++ [name]) = (s.descend dir names).bind fun d => s.find? d name := by
  induction names generalizing dir with
  | nil => simp [descend]
  | cons first rest ih => simp [descend, ih, Option.bind_assoc]

/-- Below the root, what is at a path is what its parent lists under its last component. -/
theorem lookup_eq_find? {path : String} (h : Path.isNormal path = true) (hne : path ≠ "/") :
    s.lookup path = (s.lookup (Path.parent path)).bind fun d => s.find? d (Path.fileName path) := by
  rw [lookup, Path.components_eq_parent_append h hne, descend_append]
  rfl

theorem Settled.createFile (h : s.Settled) (input content : String) :
    (s.createFile input content).2.Settled := by
  have hnormal : Path.isNormal (s.resolve input) = true := Path.isNormal_resolve ..
  unfold Store.createFile
  dsimp only
  split
  · exact h
  · next hfree =>
    simp only [Bool.or_eq_true, decide_eq_true_eq, not_or, Option.not_isSome_iff_eq_none] at hfree
    obtain ⟨hne, hnone⟩ := hfree
    split
    · next dir hdir =>
      split
      · next hd =>
        rw [lookup_eq_find? hnormal hne, hdir] at hnone
        obtain ⟨new, t, hinsert, ht, -, -, hext⟩ := insert_spec none h.forest hd hnone
          (Path.properName_fileName hnormal hne) (leaf_text content)
        rw [hinsert]
        exact h.of_extends ht hext
      · exact h
    · exact h

theorem Settled.writeFile (h : s.Settled) (input content : String) (mode : WriteMode) :
    (s.writeFile input content mode).2.Settled := by
  unfold Store.writeFile
  dsimp only
  split
  · next slot hslot =>
    split
    · next old hold =>
      refine h.modify fun e he => ?_
      rw [he, Option.bind_some] at hold
      obtain ⟨entryName, pageSection, payload, parent⟩ := e
      cases payload with
      | text _ => rfl
      | children _ => cases hold
    · exact h
  · split
    · exact h.createFile ..
    · exact h

end PocketTerminal.Files.Store
