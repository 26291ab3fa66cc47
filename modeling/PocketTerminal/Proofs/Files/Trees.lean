import PocketTerminal.Proofs.Files.Sights
import Mathlib.Data.List.Find

/-! # Trees by what stands in them

A detached tree is read by lists of names like a store. As its listings are in the order of
names, it is known by what is read: two trees in which the same stands everywhere are one
tree, but for the name of the top. So stores in which the same stands at every path are
walked alike, whichever slots their entries are in. -/
namespace PocketTerminal.Files

abbrev Glimpse := String × Nat × Sight

def Visit.glimpse (v : Visit) : Glimpse := (v.path, v.depth, v.entry.sight)

namespace Node

mutual

def sight? : Node → List String → Option Sight
  | file _ pageSection content, names =>
    if names.isEmpty then some (.file content pageSection) else none
  | directory _ pageSection _, [] => some (.directory pageSection)
  | directory _ _ entries, name :: rest => sightAmong? name rest entries

def sightAmong? (name : String) (rest : List String) : List Node → Option Sight
  | [] => none
  | node :: more => if node.name = name then node.sight? rest else sightAmong? name rest more

end

mutual

def glimpses (path : String) (depth : Nat) : Node → List Glimpse
  | file _ pageSection content => [(path, depth, .file content pageSection)]
  | directory _ pageSection entries =>
    (path, depth, .directory pageSection) :: glimpsesAmong path (depth + 1) entries

def glimpsesAmong (dir : String) (depth : Nat) : List Node → List Glimpse
  | [] => []
  | node :: more => node.glimpses (Path.join dir node.name) depth ++ glimpsesAmong dir depth more

end

variable {node a b : Node} {name : String} {rest names : List String} {entries : List Node}

@[simp] theorem sight?_rename (node : Node) (name : String) (names : List String) :
    (node.rename name).sight? names = node.sight? names := by
  cases node <;> cases names <;> rfl

@[simp] theorem size_rename (node : Node) (name : String) : (node.rename name).size = node.size := by
  cases node <;> rfl

@[simp] theorem glimpses_rename (node : Node) (name path : String) (depth : Nat) :
    (node.rename name).glimpses path depth = node.glimpses path depth := by
  cases node <;> rfl

theorem rename_self (node : Node) : node.rename node.name = node := by cases node <;> rfl

theorem exists_sight?_nil (node : Node) : ∃ sight, node.sight? [] = some sight := by
  cases node <;> exact ⟨_, rfl⟩

section Read

variable (read : Slot → Option Node) (slots : List Slot)

theorem sightAmong?_filterMap : sightAmong? name rest (slots.filterMap read) =
    (slots.find? fun i => (read i).map Node.name == some name).bind fun i =>
      (read i).bind fun node => node.sight? rest := by
  induction slots with
  | nil => rfl
  | cons i more ih =>
    rw [List.filterMap_cons, List.find?_cons]
    cases hi : read i with
    | none => exact ih
    | some node =>
      by_cases hn : node.name = name
      · simp [sightAmong?, hn, hi]
      · have hno : (some node.name == some name) = false := by simpa using hn
        rw [Option.map_some, hno, sightAmong?, if_neg hn]
        exact ih

theorem length_flatMap_eq_sizes (lists : Slot → List Slot)
    (h : ∀ i ∈ slots, (lists i).length = (read i).elim 0 size) :
    (slots.flatMap lists).length = sizes (slots.filterMap read) := by
  induction slots with
  | nil => rfl
  | cons i more ih =>
    have ih := ih fun j hj => h j (List.mem_cons_of_mem _ hj)
    rw [List.filterMap_cons, List.flatMap_cons, List.length_append, h i List.mem_cons_self, ih]
    cases read i <;> simp [sizes]

theorem glimpsesAmong_filterMap (dir : String) (depth : Nat) :
    glimpsesAmong dir depth (slots.filterMap read) = slots.flatMap fun i =>
      (read i).elim [] fun node => node.glimpses (Path.join dir node.name) depth := by
  induction slots with
  | nil => rfl
  | cons i more ih =>
    rw [List.filterMap_cons, List.flatMap_cons, ← ih]
    cases read i <;> simp [glimpsesAmong]

end Read

theorem sightAmong?_eq_none (h : ∀ node ∈ entries, node.name ≠ name) :
    sightAmong? name rest entries = none := by
  induction entries with
  | nil => rfl
  | cons node more ih =>
    rw [sightAmong?, if_neg (h node List.mem_cons_self)]
    exact ih fun other hother => h other (List.mem_cons_of_mem _ hother)

/-- No name before the first one is listed. -/
theorem sightAmong?_of_lt (h : AllTidy (node :: entries)) (hlt : name < node.name) :
    sightAmong? name rest (node :: entries) = none := by
  obtain ⟨-, -, hless, -⟩ := h
  refine sightAmong?_eq_none fun other hother he => ?_
  rcases List.mem_cons.mp hother with rfl | hother
  · exact String.lt_irrefl _ (he ▸ hlt)
  · exact String.lt_irrefl _ (String.lt_trans hlt (he ▸ hless other hother))

/-- Listings in which the same names are found begin with the same name. -/
theorem head_name_eq {more other : List Node} (ha : AllTidy (a :: more)) (hb : AllTidy (b :: other))
    (h : ∀ name rest, sightAmong? name rest (a :: more) = sightAmong? name rest (b :: other)) :
    a.name = b.name := by
  have hnot {x y : Node} {xs ys : List Node} (hy : AllTidy (y :: ys))
      (h : ∀ name rest, sightAmong? name rest (x :: xs) = sightAmong? name rest (y :: ys)) :
      ¬ x.name < y.name := by
    intro hlt
    obtain ⟨sight, hx⟩ := exists_sight?_nil x
    have he := h x.name []
    rw [sightAmong?_of_lt hy hlt, sightAmong?, if_pos rfl, hx] at he
    cases he
  exact Std.le_antisymm (Std.not_lt.mp (hnot ha fun name rest => (h name rest).symm))
    (Std.not_lt.mp (hnot hb h))

mutual

/-- Trees in which the same stands everywhere are the same but for their tops' names. -/
theorem eq_rename_of_sight? (a b : Node) (ha : a.Tidy) (hb : b.Tidy)
    (h : ∀ names, a.sight? names = b.sight? names) : a = b.rename a.name := by
  have htop := h []
  cases a with
  | file name pageSection content =>
    cases b with
    | file =>
      simp only [sight?, List.isEmpty_nil, if_true, Option.some.injEq, Sight.file.injEq] at htop
      rw [rename, Node.name, htop.1, htop.2]
    | directory => cases htop
  | directory name pageSection entries =>
    cases b with
    | file => cases htop
    | directory other otherSection others =>
      simp only [sight?, Option.some.injEq, Sight.directory.injEq] at htop
      rw [rename, Node.name, htop,
        eq_of_sightAmong? entries others ha hb fun name rest => h (name :: rest)]

theorem eq_of_sightAmong? (nodes others : List Node) (ha : AllTidy nodes) (hb : AllTidy others)
    (h : ∀ name rest, sightAmong? name rest nodes = sightAmong? name rest others) :
    nodes = others := by
  cases nodes with
  | nil =>
    cases others with
    | nil => rfl
    | cons b other =>
      obtain ⟨sight, hsight⟩ := exists_sight?_nil b
      have he := h b.name []
      rw [sightAmong?, sightAmong?, if_pos rfl, hsight] at he
      cases he
  | cons a more =>
    cases others with
    | nil =>
      obtain ⟨sight, hsight⟩ := exists_sight?_nil a
      have he := h a.name []
      rw [sightAmong?, sightAmong?, if_pos rfl, hsight] at he
      cases he
    | cons b other =>
      have hname := head_name_eq ha hb h
      obtain ⟨-, ha', hless, hmore⟩ := ha
      obtain ⟨-, hb', hless', hother⟩ := hb
      have hhead : a = b.rename a.name := eq_rename_of_sight? a b ha' hb' fun names => by
        have he := h a.name names
        rwa [sightAmong?, sightAmong?, if_pos rfl, if_pos hname.symm] at he
      rw [hname, rename_self] at hhead
      have htail : more = other := eq_of_sightAmong? more other hmore hother fun name rest => by
        by_cases hn : a.name = name
        · -- The first name does not come again in either listing.
          rw [sightAmong?_eq_none fun node hnode he =>
              String.lt_irrefl _ (((hn.trans he.symm) ▸ hless node hnode : node.name < node.name)),
            sightAmong?_eq_none fun node hnode he =>
              String.lt_irrefl _
                (((hname.symm.trans (hn.trans he.symm)) ▸ hless' node hnode : node.name < node.name))]
        · have he := h name rest
          rwa [sightAmong?, sightAmong?, if_neg hn, if_neg (hname ▸ hn)] at he
      rw [hhead, htail]

end

mutual

/-- A walk shows what stands in a tree, each thing at the path and the depth of its names. -/
theorem mem_glimpses_iff (node : Node) (h : node.Tidy) {path : String} {depth : Nat} {g : Glimpse} :
    g ∈ node.glimpses path depth ↔ ∃ names, g.1 = names.foldl Path.join path ∧
      g.2.1 = depth + names.length ∧ node.sight? names = some g.2.2 := by
  obtain ⟨at', deep, sight⟩ := g
  cases node with
  | file name pageSection content =>
    simp only [glimpses, List.mem_singleton, Prod.mk.injEq]
    constructor
    · rintro ⟨rfl, rfl, rfl⟩
      exact ⟨[], rfl, rfl, rfl⟩
    · rintro ⟨names, hpath, hdepth, hsight⟩
      cases names with
      | nil => exact ⟨hpath, hdepth, (Option.some.inj hsight).symm⟩
      | cons name rest => cases hsight
  | directory name pageSection entries =>
    rw [glimpses, List.mem_cons, mem_glimpsesAmong_iff entries h]
    simp only [Prod.mk.injEq]
    constructor
    · rintro (⟨rfl, rfl, rfl⟩ | ⟨first, rest, hpath, hdepth, hsight⟩)
      · exact ⟨[], rfl, rfl, rfl⟩
      · exact ⟨first :: rest, hpath, by rw [hdepth, List.length_cons]; omega, hsight⟩
    · rintro ⟨names, hpath, hdepth, hsight⟩
      cases names with
      | nil => exact .inl ⟨hpath, hdepth, (Option.some.inj hsight).symm⟩
      | cons first rest =>
        rw [List.length_cons] at hdepth
        exact .inr ⟨first, rest, hpath, by omega, hsight⟩

theorem mem_glimpsesAmong_iff (nodes : List Node) (h : AllTidy nodes) {dir : String} {depth : Nat}
    {g : Glimpse} : g ∈ glimpsesAmong dir depth nodes ↔
      ∃ name rest, g.1 = (name :: rest).foldl Path.join dir ∧ g.2.1 = depth + rest.length ∧
        sightAmong? name rest nodes = some g.2.2 := by
  cases nodes with
  | nil => simp [glimpsesAmong, sightAmong?]
  | cons node more =>
    obtain ⟨-, hnode, hless, hmore⟩ := h
    rw [glimpsesAmong, List.mem_append, mem_glimpses_iff node hnode, mem_glimpsesAmong_iff more hmore]
    constructor
    · rintro (⟨names, hpath, hdepth, hsight⟩ | ⟨name, rest, hpath, hdepth, hsight⟩)
      · exact ⟨node.name, names, hpath, hdepth, by rw [sightAmong?, if_pos rfl, hsight]⟩
      · have hne : node.name ≠ name := by
          rintro rfl
          rw [sightAmong?_eq_none fun other hother he =>
            absurd (hless other hother) (he ▸ String.lt_irrefl _)] at hsight
          cases hsight
        exact ⟨name, rest, hpath, hdepth, by rw [sightAmong?, if_neg hne, hsight]⟩
    · rintro ⟨name, rest, hpath, hdepth, hsight⟩
      rw [sightAmong?] at hsight
      by_cases hn : node.name = name
      · rw [if_pos hn] at hsight
        exact .inl ⟨rest, by rw [hpath, ← hn]; rfl, hdepth, hsight⟩
      · rw [if_neg hn] at hsight
        exact .inr ⟨name, rest, hpath, hdepth, hsight⟩

end

end Node

namespace Store

variable {s t : Store} {i : Slot} {k n : Nat} {node : Node} {names : List String}
  {loose : Option Slot}

/-- A descent that may go as deep as the store has slots sees all there is below a slot. -/
theorem Forest.sight?_of_treeAt (h : s.Forest loose) (hi : s.Depth i k) (hk : s.slots.size ≤ k + n)
    (hn : s.treeAt n i = some node) : node.sight? names = (s.descend i names).bind s.sightAt? := by
  induction n generalizing i k node names with
  | zero => cases hn
  | succ n ih =>
    obtain ⟨e, he, rfl⟩ := Option.map_eq_some_iff.mp hn
    obtain ⟨entryName, pageSection, payload, parent⟩ := e
    have hchildren := children_eq he
    cases names with
    | nil => cases payload <;> simp [Node.sight?, descend, sightAt?, he, Entry.sight]
    | cons name rest =>
      rw [descend, find?, hchildren]
      cases payload with
      | text content => rfl
      | children slots =>
        have hslots : s.children i = slots := hchildren
        have hread : ∀ c ∈ slots, ∃ sub, s.treeAt n c = some sub ∧
            sub.sight? rest = (s.descend c rest).bind s.sightAt? := by
          intro c hc
          have hd := h.depth_child hi (hslots.symm ▸ hc)
          have hlt := hd.lt_size
          obtain ⟨sub, hsub⟩ := exists_treeAt (by omega : 0 < n) hd.live
          exact ⟨sub, hsub, ih hd (by omega) hsub⟩
        have hfind : (slots.find? fun c => (s.treeAt n c).map Node.name == some name) =
            slots.find? fun c => s.name? c == some name := by
          refine List.find?_congr fun c hc => ?_
          obtain ⟨sub, hsub, -⟩ := hread c hc
          rw [hsub, name_of_treeAt hsub, Option.map_some]
        refine (Node.sightAmong?_filterMap (s.treeAt n) slots).trans ?_
        rw [hfind]
        change _ = ((slots.find? fun c => s.name? c == some name).bind _).bind _
        cases hc : slots.find? fun c => s.name? c == some name with
        | none => rfl
        | some c =>
          obtain ⟨sub, hsub, hsight⟩ := hread c (List.mem_of_find?_eq_some hc)
          rw [Option.bind_some, Option.bind_some, hsub, Option.bind_some, hsight]

theorem Forest.length_slotsAt (h : s.Forest loose) (hi : s.Live i) :
    (s.slotsAt n i).length = (s.treeAt n i).elim 0 Node.size := by
  induction n generalizing i with
  | zero => rfl
  | succ n ih =>
    obtain ⟨e, he⟩ := hi
    obtain ⟨entryName, pageSection, payload, parent⟩ := e
    have hchildren := children_eq he
    rw [slotsAt, List.length_cons, hchildren, treeAt, he]
    cases payload with
    | text content => rfl
    | children slots =>
      have hslots : s.children i = slots := hchildren
      change (slots.flatMap (s.slotsAt n)).length + 1 =
        1 + Node.sizes (slots.filterMap (s.treeAt n))
      rw [Nat.add_comm, Node.length_flatMap_eq_sizes (s.treeAt n) slots (s.slotsAt n)]
      exact fun c hc => ih (h.live_of_mem_children (hslots.symm ▸ hc))

/-- A walk passes through the tree that is read at its start. -/
theorem map_glimpse_visitsAt (path : String) (depth : Nat) :
    (s.visitsAt n path depth i).map Visit.glimpse =
      (s.treeAt n i).elim [] (Node.glimpses path depth) := by
  induction n generalizing path depth i with
  | zero => rfl
  | succ n ih =>
    rw [visitsAt, treeAt]
    cases he : s.at? i with
    | none => rfl
    | some e =>
      obtain ⟨entryName, pageSection, payload, parent⟩ := e
      cases payload with
      | text content => rfl
      | children slots =>
        change Visit.glimpse _ :: (slots.flatMap _).map Visit.glimpse =
          _ :: Node.glimpsesAmong path (depth + 1) (slots.filterMap (s.treeAt n))
        rw [List.map_flatMap, Node.glimpsesAmong_filterMap]
        refine congrArg₂ List.cons rfl (List.flatMap_congr fun c _ => ?_)
        rw [ih]
        cases hc : s.treeAt n c with
        | none => rfl
        | some sub => rw [name_of_treeAt hc]; rfl

/-- The tree at a path, whatever its own name: all that stands at or below the path, with
every listing in the order of names. -/
structure StandsAt (s : Store) (names : List String) (node : Node) : Prop where
  sight?_eq : ∀ rest, node.sight? rest = s.sight? (names ++ rest)
  tidy : node.Tidy

theorem Forest.standsAt_tree? (h : s.Forest none) (hi : s.descend root names = some i)
    (hn : s.tree? i = some node) : s.StandsAt names node where
  sight?_eq rest := by
    obtain ⟨k, hk⟩ := h.grounded (h.live_of_descend h.root_live hi)
    rw [h.sight?_of_treeAt hk (Nat.le_add_left _ _) hn, sight?, descend_trans, hi, Option.bind_some]
  tidy := h.tidy_of_treeAt hn

theorem Forest.size_of_tree? (h : s.Forest loose) (hi : s.Live i) (hn : s.tree? i = some node) :
    node.size = (s.treeSlots i).length := by
  rw [treeSlots, h.length_slotsAt hi, ← tree?, hn]
  rfl

theorem StandsAt.eq_rename {a b : Node} {p q : List String} (ha : s.StandsAt p a)
    (hb : t.StandsAt q b) (h : ∀ rest, s.sight? (p ++ rest) = t.sight? (q ++ rest)) :
    a = b.rename a.name :=
  Node.eq_rename_of_sight? a b ha.tidy hb.tidy fun rest => by
    rw [ha.sight?_eq, hb.sight?_eq, h]

theorem walk_eq {input : String} (hi : s.lookup (s.resolve input) = some i)
    (hn : s.tree? i = some node) :
    (s.walk input).map Visit.glimpse = node.glimpses (s.resolve input) 0 := by
  unfold walk
  dsimp only
  rw [hi]
  dsimp only
  rw [map_glimpse_visitsAt, ← tree?, hn]
  rfl

/-- Stores of which a user can see no difference. -/
structure Alike (s t : Store) : Prop where
  walk_eq : (s.walk "/").map Visit.glimpse = (t.walk "/").map Visit.glimpse
  count_eq : s.count = t.count
  cwd_eq : s.cwd = t.cwd
  home_eq : s.home = t.home

theorem resolve_root : s.resolve "/" = "/" :=
  Path.resolve_of_isNormal s.cwd s.home Path.spells_root.isNormal

theorem exists_tree?_root (h : s.Forest none) : ∃ node, s.tree? root = some node :=
  exists_treeAt h.root_live.lt_size h.root_live

theorem walk_root_eq (hn : s.tree? root = some node) :
    (s.walk "/").map Visit.glimpse = node.glimpses "/" 0 := by
  have hroot : s.lookup (s.resolve "/") = some root := by rw [resolve_root, Forest.lookup_root]
  rw [walk_eq hroot hn, resolve_root]

/-- A walk from the root shows what stands at every path, and nothing else. -/
theorem Forest.mem_walk_iff (h : s.Forest none) {g : Glimpse} :
    g ∈ (s.walk "/").map Visit.glimpse ↔ ∃ names, g.1 = names.foldl Path.join "/" ∧
      g.2.1 = names.length ∧ s.sight? names = some g.2.2 := by
  obtain ⟨node, hn⟩ := exists_tree?_root h
  have hstands : s.StandsAt [] node := h.standsAt_tree? rfl hn
  rw [walk_root_eq hn, Node.mem_glimpses_iff node hstands.tidy]
  simp only [hstands.sight?_eq, List.nil_append, Nat.zero_add]

/-- Where the same stands at every path, the walks are the same and of the same length. -/
theorem walk_eq_of_sight?_eq (hs : s.Forest none) (ht : t.Forest none)
    (h : ∀ names, s.sight? names = t.sight? names) :
    (s.walk "/").map Visit.glimpse = (t.walk "/").map Visit.glimpse ∧ s.count = t.count := by
  obtain ⟨a, ha⟩ := exists_tree?_root hs
  obtain ⟨b, hb⟩ := exists_tree?_root ht
  have hsa : s.StandsAt [] a := hs.standsAt_tree? rfl ha
  have htb : t.StandsAt [] b := ht.standsAt_tree? rfl hb
  have he : a = b.rename a.name := hsa.eq_rename htb h
  have hwalk : (s.walk "/").map Visit.glimpse = (t.walk "/").map Visit.glimpse := by
    rw [walk_root_eq ha, walk_root_eq hb, he, Node.glimpses_rename]
  refine ⟨hwalk, ?_⟩
  rw [hs.count_eq_length_walk, ht.count_eq_length_walk]
  simpa using congrArg List.length hwalk

theorem alike_of_sight?_eq (hs : s.Forest none) (ht : t.Forest none)
    (h : ∀ names, s.sight? names = t.sight? names) (hcwd : s.cwd = t.cwd) (hhome : s.home = t.home) :
    s.Alike t :=
  have hsame := walk_eq_of_sight?_eq hs ht h
  ⟨hsame.1, hsame.2, hcwd, hhome⟩

end Store
end PocketTerminal.Files
