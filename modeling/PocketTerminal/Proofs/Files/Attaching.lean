import PocketTerminal.Proofs.Files.Detaching

/-! # Putting trees into a forest

A new entry changes nothing but the listing of its directory, which gains the entry's name.
So does a whole tree, whose parts go into directories that are new themselves. -/
namespace PocketTerminal.Files

def Payload.Leaf (payload : Payload) : Prop := ∀ slots, payload = .children slots → slots = []

theorem Payload.Leaf.children_eq_nil {e : Entry} (h : e.payload.Leaf) : e.children = [] := by
  unfold Entry.children
  split
  · next slots hslots => exact h slots hslots
  · rfl

namespace Node

mutual

/-- Below the top, names can be entries' names and every listing is in their order. -/
def Tidy : Node → Prop
  | file .. => True
  | directory _ _ entries => AllTidy entries

def AllTidy : List Node → Prop
  | [] => True
  | node :: rest =>
    Path.ProperName node.name ∧ node.Tidy ∧ (∀ other ∈ rest, node.name < other.name) ∧ AllTidy rest

end

theorem tidy_rename {node : Node} (h : node.Tidy) (name : String) : (node.rename name).Tidy := by
  cases node with
  | file => trivial
  | directory => exact h

@[simp] theorem name_rename (node : Node) (name : String) : (node.rename name).name = name := by
  cases node <;> rfl

end Node

namespace Store

variable {s t u : Store} {i j dir : Slot} {name : String} {names : List String}

/-- A store that has more below one directory, under the given names, and else the same. -/
structure Extends (s t : Store) (dir : Slot) (names : List String) : Prop where
  keep : ∀ {i}, s.Live i → i ≠ dir → t.at? i = s.at? i
  directory : t.isDirectory dir = true
  name_eq : t.name? dir = s.name? dir
  parent_eq : t.parent? dir = s.parent? dir
  children_subset : ∀ {i}, i ∈ s.children dir → i ∈ t.children dir
  new_child : ∀ {i}, i ∈ t.children dir → i ∈ s.children dir ∨ ∃ name ∈ names, t.name? i = some name
  cwd_eq : t.cwd = s.cwd
  home_eq : t.home = s.home

theorem Extends.refl (h : s.isDirectory dir = true) : s.Extends s dir [] where
  keep _ _ := rfl
  directory := h
  name_eq := rfl
  parent_eq := rfl
  children_subset := id
  new_child := .inl
  cwd_eq := rfl
  home_eq := rfl

theorem Extends.live (h : s.Extends t dir names) (hi : s.Live i) : t.Live i := by
  by_cases hid : i = dir
  · exact hid ▸ live_of_isDirectory h.directory
  · obtain ⟨e, he⟩ := hi
    exact ⟨e, by rw [h.keep ⟨e, he⟩ hid, he]⟩

theorem Extends.name?_eq (h : s.Extends t dir names) (hi : s.Live i) : t.name? i = s.name? i := by
  by_cases hid : i = dir
  · exact hid ▸ h.name_eq
  · exact congrArg (Option.map Entry.name) (h.keep hi hid)

/-- What is added below an entry that was added before adds nothing to the directory. -/
theorem Extends.trans_below {new : Slot} (h : s.Extends t dir [name]) (h' : t.Extends u new names)
    (hnew : ¬ s.Live new) (hdir : dir ≠ new) : s.Extends u dir [name] := by
  have hdirlive : t.Live dir := live_of_isDirectory h.directory
  have hat : u.at? dir = t.at? dir := h'.keep hdirlive hdir
  have hlisting : u.children dir = t.children dir := by
    rw [children, hat]
    rfl
  exact {
    keep := fun {i} hi hid => by
      have hin : i ≠ new := fun he => hnew (he ▸ hi)
      rw [h'.keep (h.live hi) hin, h.keep hi hid]
    directory := by
      have := h.directory
      rwa [isDirectory, ← hat] at this
    name_eq := (congrArg (Option.map Entry.name) hat).trans h.name_eq
    parent_eq := (congrArg (Option.bind · Entry.parent) hat).trans h.parent_eq
    children_subset := fun hi => hlisting ▸ h.children_subset hi
    new_child := fun {i} hi => by
      rw [hlisting] at hi
      rcases h.new_child hi with hold | ⟨n, hn, he⟩
      · exact .inl hold
      · exact .inr ⟨n, hn, by rw [h'.name?_eq (live_of_name? he), he]⟩
    cwd_eq := h'.cwd_eq.trans h.cwd_eq
    home_eq := h'.home_eq.trans h.home_eq }

theorem Extends.trans {more : List String} (h : s.Extends t dir names) (h' : t.Extends u dir more) :
    s.Extends u dir (names ++ more) where
  keep hi hid := by rw [h'.keep (h.live hi) hid, h.keep hi hid]
  directory := h'.directory
  name_eq := h'.name_eq.trans h.name_eq
  parent_eq := h'.parent_eq.trans h.parent_eq
  children_subset hi := h'.children_subset (h.children_subset hi)
  new_child hi := by
    rcases h'.new_child hi with hi | ⟨n, hn, he⟩
    · refine (h.new_child hi).imp id fun ⟨n, hn, he⟩ => ⟨n, List.mem_append_left _ hn, ?_⟩
      rw [h'.name?_eq (live_of_name? he), he]
    · exact .inr ⟨n, List.mem_append_right _ hn, he⟩
  cwd_eq := h'.cwd_eq.trans h.cwd_eq
  home_eq := h'.home_eq.trans h.home_eq

section Insert

variable (pageSection : Option String) {payload : Payload} (h : s.Forest none)
  (hdir : s.isDirectory dir = true) (hfree : s.find? dir name = none) (hname : Path.ProperName name)
  (hleaf : payload.Leaf)

/-- A directory is not below an entry in a fresh slot, which lists nothing. -/
theorem Forest.not_within_alloc {e : Entry} (h : s.Forest none)
    (hf : (s.alloc e).2.Forest (some (s.alloc e).1)) (hchildren : e.children = [])
    (hdir : s.isDirectory dir = true) : ¬ (s.alloc e).2.Within dir (s.alloc e).1 := by
  intro hw
  rcases hw.eq_or_below with he | ⟨c, hc, _⟩
  · exact h.not_live_alloc e (he ▸ live_of_isDirectory hdir)
  · have hmem := hf.mem_children.mpr hc
    rw [h.children_alloc hchildren, children_of_not_live (alloc_slot_empty h e)] at hmem
    cases hmem

include h hdir hfree hname hleaf

/-- All that is known of a new entry: its slot was empty, its directory was not a fresh
one, and it is listed there and nowhere else. -/
theorem insert_spec : ∃ new t, s.insert dir name pageSection payload = (new, t) ∧ t.Forest none ∧
    ¬ s.Live new ∧ t.at? new = some ⟨name, pageSection, payload, some dir⟩ ∧
    s.Extends t dir [name] := by
  let e : Entry := { name := name, pageSection := pageSection, payload := payload }
  have hchildren : e.children = [] := hleaf.children_eq_nil (e := e)
  have hf := h.alloc (e := e) rfl hchildren hname
  have hout := h.not_within_alloc hf hchildren hdir
  have hne := ne_of_not_within hout
  have hdirlive := live_of_isDirectory hdir
  have hat (j : Slot) (hj : s.Live j) : (s.alloc e).2.at? j = s.at? j :=
    h.at?_alloc_old e fun he => h.not_live_alloc e (he ▸ hj)
  have hadir : (s.alloc e).2.isDirectory dir = true := by
    rwa [isDirectory, hat dir hdirlive]
  have hnewname : (s.alloc e).2.name? (s.alloc e).1 = some name := name?_eq (h.at?_alloc_new e)
  have hfind : ∀ i ∈ (s.alloc e).2.children dir,
      (s.alloc e).2.name? i ≠ (s.alloc e).2.name? (s.alloc e).1 := by
    intro i hi
    rw [h.children_alloc hchildren] at hi
    rw [name?, hat i (h.live_of_mem_children hi), hnewname]
    exact Forest.find?_eq_none_iff.mp hfree i hi
  have hnewlive : (s.alloc e).2.Live (s.alloc e).1 := ⟨e, h.at?_alloc_new e⟩
  have hlisted (i : Slot) : i ∈ ((s.alloc e).2.link dir (s.alloc e).1).children dir ↔
      i = (s.alloc e).1 ∨ i ∈ s.children dir := by
    rw [children_link hadir hnewlive hne, if_pos rfl, mem_placeByName, h.children_alloc hchildren]
  refine ⟨(s.alloc e).1, (s.alloc e).2.link dir (s.alloc e).1, rfl, hf.link hadir hout hfind,
    h.not_live_alloc e, by rw [at?_link hne, if_pos rfl, h.at?_alloc_new]; rfl, ?_⟩
  exact {
    keep := fun {i} hi hid => by
      have hnew : i ≠ (s.alloc e).1 := fun he => h.not_live_alloc e (he ▸ hi)
      rw [at?_link hne, if_neg hnew, if_neg hid, hat i hi]
    directory := (isDirectory_link hadir hnewlive hne dir).trans hadir
    name_eq := by
      rw [name?_link hadir hnewlive hne, name?, hat dir hdirlive]
      rfl
    parent_eq := (hf.parent?_link_rest hadir hout hne).trans (h.parent?_alloc rfl dir)
    children_subset := fun hi => (hlisted _).mpr (.inr hi)
    new_child := fun {i} hi => by
      rcases (hlisted i).mp hi with rfl | hi
      · refine .inr ⟨name, List.mem_singleton.mpr rfl, ?_⟩
        rw [name?_link hadir hnewlive hne, hnewname]
      · exact .inl hi
    cwd_eq := link_cwd.trans (alloc_cwd e)
    home_eq := link_home.trans (alloc_home e) }

end Insert

theorem leaf_text (content : String) : (Payload.text content).Leaf := by
  intro slots h
  cases h

theorem leaf_empty : (Payload.children []).Leaf := by
  rintro slots ⟨⟩
  rfl

/-- The first of several nodes takes no name from those after it. -/
theorem Extends.free_of_less {node : Node} {rest : List Node} (h : s.Extends t dir [node.name])
    (hs : s.Forest none) (hless : ∀ other ∈ rest, node.name < other.name)
    (hfree : ∀ i ∈ s.children dir, ∀ other ∈ node :: rest, s.name? i ≠ some other.name) :
    ∀ i ∈ t.children dir, ∀ other ∈ rest, t.name? i ≠ some other.name := by
  intro i hi other hother
  rcases h.new_child hi with hi | ⟨n, hn, he⟩
  · rw [h.name?_eq (hs.live_of_mem_children hi)]
    exact hfree i hi other (List.mem_cons_of_mem _ hother)
  · rw [he, List.mem_singleton.mp hn]
    intro heq
    have hlt := hless other hother
    rw [Option.some.inj heq] at hlt
    exact absurd hlt (String.lt_irrefl _)

mutual

theorem attach_spec (node : Node) {s : Store} {dir : Slot} (h : s.Forest none)
    (hdir : s.isDirectory dir = true) (hfree : s.find? dir node.name = none)
    (hname : Path.ProperName node.name) (htidy : node.Tidy) :
    (s.attach dir node).Forest none ∧ s.Extends (s.attach dir node) dir [node.name] := by
  cases node with
  | file name pageSection content =>
    simp only [Node.name] at hfree hname ⊢
    obtain ⟨new, t, hinsert, ht, -, -, hext⟩ :=
      insert_spec pageSection h hdir hfree hname (leaf_text content)
    rw [attach, hinsert]
    exact ⟨ht, hext⟩
  | directory name pageSection entries =>
    simp only [Node.name] at hfree hname ⊢
    obtain ⟨new, t, hinsert, ht, hnew, hat, hext⟩ :=
      insert_spec pageSection h hdir hfree hname leaf_empty
    have hnewdir : t.isDirectory new = true := isDirectory_iff.mpr ⟨_, hat, rfl⟩
    have hempty : t.children new = [] := children_eq hat
    obtain ⟨hu, hext'⟩ := attachAll_spec entries ht hnewdir (by simp [hempty]) htidy
    have hne : dir ≠ new := fun he => hnew (he ▸ live_of_isDirectory hdir)
    rw [attach, hinsert]
    exact ⟨hu, hext.trans_below hext' hnew hne⟩

theorem attachAll_spec (nodes : List Node) {s : Store} {dir : Slot} (h : s.Forest none)
    (hdir : s.isDirectory dir = true)
    (hfree : ∀ i ∈ s.children dir, ∀ node ∈ nodes, s.name? i ≠ some node.name)
    (htidy : Node.AllTidy nodes) :
    (s.attachAll dir nodes).Forest none ∧
      s.Extends (s.attachAll dir nodes) dir (nodes.map Node.name) := by
  cases nodes with
  | nil => exact ⟨h, .refl hdir⟩
  | cons node rest =>
    obtain ⟨hname, hnode, hless, hrest⟩ := htidy
    have hfind : s.find? dir node.name = none :=
      Forest.find?_eq_none_iff.mpr fun i hi => hfree i hi node List.mem_cons_self
    obtain ⟨ht, hext⟩ := attach_spec node h hdir hfind hname hnode
    obtain ⟨hu, hext'⟩ :=
      attachAll_spec rest ht hext.directory (hext.free_of_less h hless hfree) hrest
    rw [attachAll]
    exact ⟨hu, hext.trans hext'⟩

end

end Store
end PocketTerminal.Files
