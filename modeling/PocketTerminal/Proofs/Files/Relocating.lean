import PocketTerminal.Proofs.Files.Settled

/-! # Removing, copying and moving

Clearing a landing place takes away one file at most, which no way to a directory leads
through. What is moved is loose in between, and lands outside the tree below it. -/
namespace PocketTerminal.Files.Store

variable {s t : Store} {i j dir child source : Slot} {name path : String} {loose : Option Slot}

theorem Forest.live_of_descend (h : s.Forest loose) {names : List String} (hdir : s.Live dir)
    (hd : s.descend dir names = some i) : s.Live i := by
  induction names generalizing dir with
  | nil =>
    cases hd
    exact hdir
  | cons name rest ih =>
    obtain ⟨c, hc, hrest⟩ := Option.bind_eq_some_iff.mp hd
    exact ih (h.live_of_mem_children (h.find?_eq_some_iff.mp hc).1) hrest

theorem Forest.live_of_lookup (h : s.Forest loose) (hl : s.lookup path = some i) : s.Live i :=
  h.live_of_descend h.root_live hl

theorem Forest.ne_root_of_lookup (h : s.Forest loose) (hnormal : Path.isNormal path = true)
    (hne : path ≠ "/") (hl : s.lookup path = some i) : i ≠ root := by
  rw [lookup_eq_find? hnormal hne] at hl
  obtain ⟨d, -, hf⟩ := Option.bind_eq_some_iff.mp hl
  exact h.ne_root_of_mem_children (h.find?_eq_some_iff.mp hf).1

theorem Settled.remove (h : s.Settled) (input : String) (recursive : Bool) :
    (s.remove input recursive).2.Settled := by
  unfold Store.remove
  dsimp only
  split
  · exact h
  · next hne =>
    split
    · exact h
    · next slot hslot =>
      split
      · exact h
      · split
        · exact h
        · have hroot := h.forest.ne_root_of_lookup (Path.isNormal_resolve ..) hne hslot
          refine (h.forest.detach (h.forest.live_of_lookup hslot) hroot).settled_repairCwd ?_ ?_
          · simpa [Store.detach] using h.cwd_normal
          · simpa [Store.detach] using h.home_normal

section DetachFile

variable (h : s.Forest none) (hl : s.Live child) (hfile : s.isDirectory child = false)
include h hl hfile

theorem ne_root_of_file : child ≠ root := by
  rintro rfl
  rw [h.root_directory] at hfile
  cases hfile

omit hl in
/-- Nothing lies below a file. -/
theorem within_file_iff : s.Within i child ↔ i = child := by
  refine ⟨fun hw => ?_, fun he => he ▸ .refl i⟩
  rcases hw.eq_or_below with he | ⟨c, hc, _⟩
  · exact he
  · have := h.directory_of_parent hc
    rw [hfile] at this
    cases this

theorem at?_detach_file (hi : i ≠ child) : (s.detach child).at? i = (s.unlink child).at? i :=
  at?_detach h hl (by rwa [within_file_iff h hfile])

theorem live_detach_file (hi : i ≠ child) : (s.detach child).Live i ↔ s.Live i := by
  rw [← live_unlink h hl (ne_root_of_file h hl hfile)]
  unfold Live
  rw [at?_detach_file h hl hfile hi]

theorem name?_detach_file (hi : i ≠ child) : (s.detach child).name? i = s.name? i := by
  rw [← name?_unlink h hl (ne_root_of_file h hl hfile)]
  exact congrArg (Option.map Entry.name) (at?_detach_file h hl hfile hi)

theorem isDirectory_detach_file (hi : i ≠ child) :
    (s.detach child).isDirectory i = s.isDirectory i := by
  rw [← isDirectory_unlink h hl (ne_root_of_file h hl hfile)]
  exact congrArg (Option.any Entry.isDirectory) (at?_detach_file h hl hfile hi)

theorem mem_children_detach_file (hd : dir ≠ child) :
    i ∈ (s.detach child).children dir ↔ i ∈ s.children dir ∧ i ≠ child := by
  have hchildren := children_unlink h hl (ne_root_of_file h hl hfile) dir
  rw [children, ← at?_detach_file h hl hfile hd] at hchildren
  rw [children, hchildren]
  simp

theorem parent?_detach_file (hi : i ≠ child) : (s.detach child).parent? i = s.parent? i := by
  have hp := parent?_unlink h hl (ne_root_of_file h hl hfile) i
  rw [if_neg hi] at hp
  rw [← hp]
  exact congrArg (Option.bind · Entry.parent) (at?_detach_file h hl hfile hi)

theorem keeps_detach_file : s.Keeps (s.detach child) := by
  have hne {k : Slot} (hk : s.isDirectory k = true) : k ≠ child := by
    rintro rfl
    rw [hfile] at hk
    cases hk
  exact {
    directory := fun hd => (isDirectory_detach_file h hl hfile (hne hd)).trans hd
    name_eq := fun hd => name?_detach_file h hl hfile (hne hd)
    child := fun hd hi =>
      (mem_children_detach_file h hl hfile (hne (isDirectory_of_mem_children hi))).mpr ⟨hi, hne hd⟩ }

theorem within_detach_file (hw : (s.detach child).Within i j) (hi : i ≠ child) : s.Within i j := by
  have hf := h.detach hl (ne_root_of_file h hl hfile)
  induction hw with
  | refl _ => exact .refl _
  | @up i d top hp _ ih =>
    have hd : d ≠ child := by
      rintro rfl
      have hdir := hf.directory_of_parent hp
      rw [isDirectory, at?_detach_within h hl (.refl d)] at hdir
      cases hdir
    exact .up ((parent?_detach_file h hl hfile hi).symm.trans hp) (ih hd)

end DetachFile

theorem name_of_treeAt {n : Nat} {node : Node} (hn : s.treeAt n i = some node) :
    s.name? i = some node.name := by
  cases n with
  | zero => cases hn
  | succ n =>
    obtain ⟨e, he, rfl⟩ := Option.map_eq_some_iff.mp hn
    rw [name?_eq he]
    cases e.payload <;> rfl

/-- The tree at an entry can be read down to any depth. -/
theorem exists_treeAt {n : Nat} (hn : 0 < n) (h : s.Live i) : ∃ node, s.treeAt n i = some node := by
  obtain ⟨n, rfl⟩ := Nat.exists_eq_succ_of_ne_zero hn.ne'
  obtain ⟨e, he⟩ := h
  rw [treeAt, he]
  exact ⟨_, rfl⟩

/-- Nodes whose slots come in the order of their names, which are proper, are tidy. -/
theorem allTidy_filterMap {read : Slot → Option Node} {slots : List Slot}
    (hsorted : slots.Pairwise s.Before)
    (hread : ∀ i ∈ slots, ∀ node, read i = some node →
      s.name? i = some node.name ∧ Path.ProperName node.name ∧ node.Tidy) :
    Node.AllTidy (slots.filterMap read) := by
  induction slots with
  | nil => trivial
  | cons i rest ih =>
    obtain ⟨hless, hsorted⟩ := List.pairwise_cons.mp hsorted
    have ih := ih hsorted fun j hj => hread j (List.mem_cons_of_mem _ hj)
    cases hi : read i with
    | none => simpa [List.filterMap_cons, hi] using ih
    | some node =>
      rw [List.filterMap_cons, hi]
      obtain ⟨hname, hproper, htidy⟩ := hread i List.mem_cons_self node hi
      refine ⟨hproper, htidy, fun other hother => ?_, ih⟩
      obtain ⟨j, hj, hjo⟩ := List.mem_filterMap.mp hother
      obtain ⟨a, b, ha, hb, hlt⟩ := hless j hj
      obtain ⟨hjname, -, -⟩ := hread j (List.mem_cons_of_mem _ hj) other hjo
      rw [hname] at ha
      rw [hjname] at hb
      cases ha
      cases hb
      exact hlt

theorem Forest.tidy_of_treeAt (h : s.Forest none) {n : Nat} {node : Node}
    (hn : s.treeAt n i = some node) : node.Tidy := by
  induction n generalizing i node with
  | zero => cases hn
  | succ n ih =>
    obtain ⟨e, he, rfl⟩ := Option.map_eq_some_iff.mp hn
    obtain ⟨entryName, pageSection, payload, parent⟩ := e
    cases payload with
    | text content => trivial
    | children slots =>
      have hslots : s.children i = slots := children_eq he
      refine allTidy_filterMap (hslots ▸ h.sorted i) fun j hj node hnode => ?_
      have hroot : j ≠ root := h.ne_root_of_mem_children (hslots.symm ▸ hj)
      have hname := name_of_treeAt hnode
      exact ⟨hname, h.proper hroot hname, ih hnode⟩

/-- A landing place is in a directory and under a name that an entry can have. -/
theorem Forest.landing?_spec (h : s.Forest none) (hroot : source ≠ root)
    (hnormal : Path.isNormal path = true) (hl : s.landing? source path = some (dir, name)) :
    s.isDirectory dir = true ∧ Path.ProperName name := by
  unfold landing? at hl
  split at hl
  · next d hd =>
    obtain ⟨-, hdir⟩ := Option.filter_eq_some_iff.mp hd
    obtain ⟨n, hn, he⟩ := Option.map_eq_some_iff.mp hl
    cases he
    simp only [Bool.and_eq_true] at hdir
    exact ⟨hdir.1, h.proper hroot hn⟩
  · split at hl
    · next d hd =>
      dsimp only at hl
      split at hl
      · next hdir =>
        cases hl
        simp only [Bool.and_eq_true, bne_iff_ne, ne_eq] at hdir
        refine ⟨hdir.1, Path.properName_fileName hnormal ?_⟩
        rintro rfl
        exact hdir.2 (by decide)
      · cases hl
    · cases hl

/-- A cleared landing place: what lands there is as it was, and its name is free or its own. -/
structure Cleared (s t : Store) (source dir : Slot) (name : String) : Prop where
  forest : t.Forest none
  keeps : s.Keeps t
  cwd_eq : t.cwd = s.cwd
  home_eq : t.home = s.home
  source_live : t.Live source
  outside : ¬ t.Within dir source
  free : ∀ i ∈ t.children dir, t.name? i = some name →
    i = source ∧ s.find? dir name = some source

theorem Forest.clearLanding_spec (h : s.Forest none) (name : String) (hsource : s.Live source)
    (hdir : s.isDirectory dir = true) :
    s.clearLanding source dir name = (false, s) ∨
      ∃ t, s.clearLanding source dir name = (true, t) ∧ s.Cleared t source dir name := by
  unfold clearLanding
  by_cases hw : s.isWithin dir source = true
  · exact .inl (by rw [if_pos hw])
  · rw [if_neg hw]
    rw [h.isWithin_iff (live_of_isDirectory hdir)] at hw
    cases hf : s.find? dir name with
    | none =>
      exact .inr ⟨s, rfl, h, .refl s, rfl, rfl, hsource, hw,
        fun i hi hn => absurd hn (find?_eq_none_iff.mp hf i hi)⟩
    | some there =>
      obtain ⟨hthere, hname⟩ := h.find?_eq_some_iff.mp hf
      have hfree : ∀ i ∈ s.children dir, s.name? i = some name → i = there :=
        fun i hi hn => h.eq_of_name hi hthere (hn.trans hname.symm)
      by_cases he : there = source
      · exact .inr ⟨s, by simp [he], h, .refl s, rfl, rfl, hsource, hw,
          fun i hi hn => ⟨(hfree i hi hn).trans he, he ▸ hf⟩⟩
      · by_cases hboth : (s.isDirectory there || s.isDirectory source) = true
        · exact .inl (by simp [he, hboth])
        · simp only [Bool.or_eq_true, not_or, Bool.not_eq_true] at hboth
          obtain ⟨hfile, hsourcefile⟩ := hboth
          have hl := h.live_of_mem_children hthere
          have hd : dir ≠ there := by
            rintro rfl
            rw [hfile] at hdir
            cases hdir
          refine .inr ⟨s.detach there, by simp [he, hfile, hsourcefile],
            h.detach hl (ne_root_of_file h hl hfile), keeps_detach_file h hl hfile,
            by simp [Store.detach], by simp [Store.detach], ?_, ?_, ?_⟩
          · exact (live_detach_file h hl hfile (Ne.symm he)).mpr hsource
          · exact fun hwt => hw (within_detach_file h hl hfile hwt hd)
          · intro i hi hn
            obtain ⟨hi, hne⟩ := (mem_children_detach_file h hl hfile hd).mp hi
            rw [name?_detach_file h hl hfile hne] at hn
            exact absurd (hfree i hi hn) hne

theorem Cleared.find?_rename_eq_none (h : s.Cleared t source dir name)
    (hother : s.find? dir name ≠ some source) (node : Node) :
    t.find? dir (node.rename name).name = none := by
  rw [Node.name_rename]
  refine Forest.find?_eq_none_iff.mpr fun i hi hn => ?_
  exact hother (h.free i hi hn).2

theorem Settled.copy (h : s.Settled) (input destination : String) :
    (s.copy input destination).2.Settled := by
  unfold Store.copy
  dsimp only
  split
  · exact h
  · next slot hslot =>
    split
    · exact h
    · next hroot =>
      split
      · exact h
      · next dir name hland =>
        split
        · exact h
        · next hother =>
          obtain ⟨hdir, hname⟩ := h.forest.landing?_spec hroot (Path.isNormal_resolve ..) hland
          rcases h.forest.clearLanding_spec name (h.forest.live_of_lookup hslot) hdir with
            hkept | ⟨t, hcleared, ht⟩
          · rw [hkept]
            exact h
          · rw [hcleared]
            have hsettled : t.Settled := h.of_keeps ht.forest ht.keeps ht.cwd_eq ht.home_eq
            dsimp only
            split
            · exact hsettled
            · next node hnode =>
              obtain ⟨hu, hext⟩ := attach_spec (node.rename name) ht.forest
                (ht.keeps.directory hdir) (ht.find?_rename_eq_none hother node)
                (by rwa [Node.name_rename])
                (Node.tidy_rename (ht.forest.tidy_of_treeAt hnode) name)
              exact hsettled.of_extends hu hext

section Rename

variable (child name)

theorem name?_rename (i : Slot) :
    (s.modify child fun e => { e with name := name }).name? i =
      if i = child then (s.name? i).map fun _ => name else s.name? i := by
  unfold name?
  rw [at?_modify]
  by_cases hi : i = child
  · subst hi
    cases s.at? i <;> simp
  · simp [hi]

theorem parent?_rename (i : Slot) :
    (s.modify child fun e => { e with name := name }).parent? i = s.parent? i := by
  unfold parent?
  rw [at?_modify]
  by_cases hi : i = child
  · subst hi
    cases s.at? i <;> simp
  · simp [hi]

theorem isDirectory_rename (i : Slot) :
    (s.modify child fun e => { e with name := name }).isDirectory i = s.isDirectory i := by
  unfold isDirectory
  rw [at?_modify]
  by_cases hi : i = child
  · subst hi
    cases s.at? i <;> simp [Entry.isDirectory]
  · simp [hi]

theorem children_rename (i : Slot) :
    (s.modify child fun e => { e with name := name }).children i = s.children i := by
  unfold children
  rw [at?_modify]
  by_cases hi : i = child
  · subst hi
    cases s.at? i <;> simp [Entry.children]
  · simp [hi]

theorem live_rename (i : Slot) :
    (s.modify child fun e => { e with name := name }).Live i ↔ s.Live i := by
  rw [← not_iff_not, not_live_iff, not_live_iff, at?_modify]
  by_cases hi : i = child
  · subst hi
    simp
  · simp [hi]

/-- What is listed nowhere may change its name. -/
theorem Forest.rename (h : s.Forest (some child)) (hname : Path.ProperName name) :
    (s.modify child fun e => { e with name := name }).Forest (some child) := by
  obtain ⟨hroot, hchild, htop⟩ := h.loose_top rfl
  have hlive := live_rename (s := s) child name
  have hparents := parent?_rename (s := s) child name
  have hnames {i : Slot} (hi : i ≠ child) := (name?_rename (s := s) child name i).trans (if_neg hi)
  exact {
    free_nodup := by simpa using h.free_nodup
    mem_free := fun {i} => by
      rw [modify_free, modify_size, h.mem_free, ← not_live_iff, ← not_live_iff, hlive]
    root_directory := (isDirectory_rename child name root).trans h.root_directory
    root_top := (hparents root).trans h.root_top
    loose_top := by
      rintro i ⟨⟩
      exact ⟨hroot, (hlive child).mpr hchild, (hparents child).trans htop⟩
    eq_of_top := fun {i} hi hp => h.eq_of_top ((hlive i).mp hi) ((hparents i).symm.trans hp)
    mem_children := fun {d i} => by
      rw [children_rename, hparents, h.mem_children]
    sorted := fun d => by
      rw [children_rename]
      refine (h.sorted d).imp_of_mem fun ha hb hab => ?_
      have hne {k : Slot} (hk : k ∈ s.children d) : k ≠ child := by
        rintro rfl
        rw [h.mem_children, htop] at hk
        cases hk
      exact hab.of_name_eq (hnames (hne ha)) (hnames (hne hb))
    proper := fun {i n} hi hn => by
      by_cases hic : i = child
      · rw [name?_rename, if_pos hic] at hn
        obtain ⟨_, -, rfl⟩ := Option.map_eq_some_iff.mp hn
        exact hname
      · exact h.proper hi ((hnames hic).symm.trans hn)
    grounded := fun {i} hi => by
      obtain ⟨n, hn⟩ := h.grounded ((hlive i).mp hi)
      exact ⟨n, hn.of_parent_eq (fun j => (hlive j).mpr) fun j _ => hparents j⟩ }

end Rename

/-- What a cleared place is for can be struck off, renamed and listed there. -/
theorem Cleared.relocate (h : s.Cleared t source dir name) (hroot : source ≠ root)
    (hdir : s.isDirectory dir = true) (hname : Path.ProperName name) :
    (((t.unlink source).modify source fun e => { e with name := name }).link dir source).Forest none := by
  have hf := h.forest
  have hl := h.source_live
  have hrenamed := (hf.unlink hl hroot).rename source name hname
  have hsource : ((t.unlink source).modify source fun e => { e with name := name }).name? source =
      some name := by
    obtain ⟨n, hn⟩ := hl.name?
    rw [name?_rename, if_pos rfl, name?_unlink hf hl hroot, hn]
    rfl
  refine hrenamed.link ?_ ?_ ?_
  · rw [isDirectory_rename, isDirectory_unlink hf hl hroot]
    exact h.keeps.directory hdir
  · intro hw
    refine h.outside ((within_unlink_iff hf hl hroot).mp (hw.transfer fun i d _ hp => ?_))
    rwa [parent?_rename] at hp
  · intro i hi hn
    rw [children_rename, children_unlink hf hl hroot] at hi
    obtain ⟨hi, hne⟩ := List.mem_filter.mp hi
    rw [bne_iff_ne] at hne
    rw [hsource, name?_rename, if_neg hne, name?_unlink hf hl hroot] at hn
    exact hne (h.free i hi hn).1

theorem Settled.move (h : s.Settled) (input destination : String) :
    (s.move input destination).2.Settled := by
  unfold Store.move
  dsimp only
  split
  · exact h
  · next slot hslot =>
    split
    · exact h
    · next hroot =>
      split
      · exact h
      · next dir name hland =>
        obtain ⟨hdir, hname⟩ := h.forest.landing?_spec hroot (Path.isNormal_resolve ..) hland
        rcases h.forest.clearLanding_spec name (h.forest.live_of_lookup hslot) hdir with
          hkept | ⟨t, hcleared, ht⟩
        · rw [hkept]
          exact h
        · rw [hcleared]
          dsimp only
          refine (ht.relocate hroot hdir hname).settled_repairCwd ?_ ?_
          · rw [link_cwd, modify_cwd, unlink_cwd, ht.cwd_eq]
            exact h.cwd_normal
          · rw [link_home, modify_home, unlink_home, ht.home_eq]
            exact h.home_normal

end PocketTerminal.Files.Store
