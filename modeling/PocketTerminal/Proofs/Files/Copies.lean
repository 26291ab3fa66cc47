import PocketTerminal.Proofs.Files.Growing
import PocketTerminal.Proofs.Files.Moves

/-! # What a copy does

A tree put into a directory stands at the name that the directory gains. So a copy puts all
that stands at or below its source at the landing place, in entries of its own, and leaves
every path alone that is not at or below that place. -/
namespace PocketTerminal.Files

namespace Node

mutual

/-- A walk meets each node of a tree once. -/
theorem length_glimpses (node : Node) (path : String) (depth : Nat) :
    (node.glimpses path depth).length = node.size := by
  cases node with
  | file => rfl
  | directory name pageSection entries =>
    rw [glimpses, List.length_cons, length_glimpsesAmong, size, Nat.add_comm]

theorem length_glimpsesAmong (entries : List Node) (dir : String) (depth : Nat) :
    (glimpsesAmong dir depth entries).length = sizes entries := by
  cases entries with
  | nil => rfl
  | cons node more =>
    rw [glimpsesAmong, List.length_append, length_glimpses node, sizes, length_glimpsesAmong more]

end

end Node

namespace Store

variable {s t u : Store} {i d dir source : Slot} {name x : String} {p q rest S D : List String}
  {node : Node} {nodes : List Node}

structure Grafted (s t : Store) (place : List String) (node : Node) : Prop where
  landed : ∀ rest, t.sight? (place ++ rest) = node.sight? rest
  elsewhere : ∀ p, ¬ place <+: p → t.sight? p = s.sight? p
  count_eq : t.count = s.count + node.size

/-- Trees stand in a directory under names that it did not have. -/
structure GraftedAll (s t : Store) (dir : List String) (nodes : List Node) : Prop where
  landed : ∀ x rest, t.sight? (dir ++ x :: rest) =
    (Node.sightAmong? x rest nodes).or (s.sight? (dir ++ x :: rest))
  elsewhere : ∀ p, (∀ x rest, p ≠ dir ++ x :: rest) → t.sight? p = s.sight? p
  count_eq : t.count = s.count + Node.sizes nodes

theorem sight?_eq_none_of_free (h : s.Forest none) (hq : s.descend root q = some dir)
    (hfree : s.find? dir x = none) : s.sight? (q ++ x :: rest) = none := by
  rw [h.sight?_eq_none_iff, descend_trans, hq, Option.bind_some, descend, hfree, Option.bind_none]

theorem Inserted.grafted_file {new : Slot} {pageSection : Option String} {content : String}
    (hin : s.Inserted t dir new name (.file content pageSection)) (h : s.Forest none)
    (hq : s.descend root q = some dir) (hfree : s.find? dir name = none) :
    s.Grafted t (q ++ [name]) (.file name pageSection content) where
  landed rest := by
    rw [hin.sight?_eq h hfree hq]
    cases rest with
    | nil => simp [Node.sight?]
    | cons x more =>
      rw [if_neg (by simp), List.append_assoc]
      exact sight?_eq_none_of_free h hq hfree
  elsewhere p hp := by
    rw [hin.sight?_eq h hfree hq, if_neg]
    rintro rfl
    exact hp List.prefix_rfl
  count_eq := hin.count_eq

/-- The entries of a new directory stand where the directory does. -/
theorem Inserted.grafted_directory {new : Slot} {pageSection : Option String}
    (hin : s.Inserted t dir new name (.directory pageSection)) (h : s.Forest none)
    (hq : s.descend root q = some dir) (hfree : s.find? dir name = none)
    (hall : t.GraftedAll u (q ++ [name]) nodes) :
    s.Grafted u (q ++ [name]) (.directory name pageSection nodes) where
  landed rest := by
    cases rest with
    | nil =>
      rw [List.append_nil, hall.elsewhere _ (by simp), hin.sight?_eq h hfree hq, if_pos rfl]
      rfl
    | cons x more =>
      have hnone : s.sight? (q ++ [name] ++ x :: more) = none := by
        rw [List.append_assoc]
        exact sight?_eq_none_of_free h hq hfree
      rw [hall.landed, hin.sight?_eq h hfree hq, if_neg (by simp), hnone, Option.or_none]
      rfl
  elsewhere p hp := by
    rw [hall.elsewhere, hin.sight?_eq h hfree hq, if_neg]
    · rintro rfl
      exact hp List.prefix_rfl
    · rintro x more rfl
      exact hp (List.prefix_append _ _)
  count_eq := by
    rw [hall.count_eq, hin.count_eq, Node.size]
    omega

/-- One tree is put in before the others, under a name that none of them has. -/
theorem Grafted.cons (hg : s.Grafted t (q ++ [node.name]) node) (hall : t.GraftedAll u q nodes)
    (h : s.Forest none) (hq : s.descend root q = some dir) (hfree : s.find? dir node.name = none)
    (hless : ∀ other ∈ nodes, node.name < other.name) : s.GraftedAll u q (node :: nodes) where
  landed x rest := by
    rw [hall.landed, Node.sightAmong?]
    by_cases hx : node.name = x
    · have hlanded := hg.landed rest
      rw [List.append_assoc, List.singleton_append] at hlanded
      have hlater : ∀ other ∈ nodes, other.name ≠ x := fun other hother he =>
        absurd (hless other hother) (by rw [hx, he]; exact String.lt_irrefl x)
      rw [if_pos hx, Node.sightAmong?_eq_none hlater, Option.none_or, ← hx, hlanded,
        sight?_eq_none_of_free h hq hfree, Option.or_none]
    · rw [if_neg hx, hg.elsewhere]
      intro hpre
      obtain ⟨more, hmore⟩ := hpre
      rw [List.append_assoc] at hmore
      exact hx (List.cons.inj (List.append_cancel_left hmore)).1
  elsewhere p hp := by
    rw [hall.elsewhere p hp, hg.elsewhere]
    rintro ⟨more, rfl⟩
    exact hp node.name more (by simp)
  count_eq := by
    rw [hall.count_eq, hg.count_eq, Node.sizes]
    omega

mutual

theorem attach_grafted (node : Node) {s : Store} {dir : Slot} {q : List String} (h : s.Forest none)
    (hq : s.descend root q = some dir) (hdir : s.isDirectory dir = true)
    (hfree : s.find? dir node.name = none) (hname : Path.ProperName node.name)
    (htidy : node.Tidy) : s.Grafted (s.attach dir node) (q ++ [node.name]) node := by
  cases node with
  | file name pageSection content =>
    simp only [Node.name] at hfree hname ⊢
    obtain ⟨new, t, hinsert, hin⟩ := inserted pageSection h hdir hfree hname (leaf_text content)
    rw [attach, hinsert]
    exact hin.grafted_file h hq hfree
  | directory name pageSection entries =>
    simp only [Node.name] at hfree hname ⊢
    obtain ⟨new, t, hinsert, hin⟩ := inserted pageSection h hdir hfree hname leaf_empty
    have hnew : t.descend root (q ++ [name]) = some new := by
      rw [hin.descend_eq h hfree hq, if_pos rfl]
    have hnewdir : t.isDirectory new = true := by
      rw [← any_sightAt?, hin.sightAt?_eq, if_pos rfl]
      rfl
    have hempty := hin.children_new h (live_of_isDirectory hdir)
    rw [attach, hinsert]
    exact hin.grafted_directory h hq hfree
      (attachAll_grafted entries hin.forest hnew hnewdir (by simp [hempty]) htidy)

theorem attachAll_grafted (nodes : List Node) {s : Store} {dir : Slot} {q : List String}
    (h : s.Forest none) (hq : s.descend root q = some dir) (hdir : s.isDirectory dir = true)
    (hfree : ∀ i ∈ s.children dir, ∀ node ∈ nodes, s.name? i ≠ some node.name)
    (htidy : Node.AllTidy nodes) : s.GraftedAll (s.attachAll dir nodes) q nodes := by
  cases nodes with
  | nil =>
    refine ⟨fun x rest => ?_, fun p _ => rfl, rfl⟩
    rw [attachAll, Node.sightAmong?, Option.none_or]
  | cons node more =>
    obtain ⟨hname, hnode, hless, hmore⟩ := htidy
    have hfind : s.find? dir node.name = none :=
      Forest.find?_eq_none_iff.mpr fun i hi => hfree i hi node List.mem_cons_self
    obtain ⟨ht, hext⟩ := attach_spec node h hdir hfind hname hnode
    have hall := attachAll_grafted more ht (hext.keeps.descend h ht hq hdir) hext.directory
      (hext.free_of_less h hless hfree) hmore
    rw [attachAll]
    exact (attach_grafted node h hq hdir hfind hname hnode).cons hall h hq hfind hless

end

/-- The conditions under which a source can be copied to its landing place. -/
structure Copyable (s : Store) (source landing : List String) : Prop where
  exists_source : (s.sight? source).isSome = true
  source_below_root : source ≠ []
  apart : landing ≠ source
  room : s.HasRoom source landing

/-- What stands where after a copy of so many entries. -/
structure Copied (s t : Store) (source landing : List String) (entries : Nat) : Prop where
  landed : ∀ rest, t.sight? (landing ++ rest) = s.sight? (source ++ rest)
  elsewhere : ∀ path, ¬ landing <+: path → t.sight? path = s.sight? path
  source_kept : ∀ rest, t.sight? (source ++ rest) = s.sight? (source ++ rest)
  /-- One entry less where a file has made way. -/
  count_eq : t.count + (if (s.sight? landing).isSome then 1 else 0) = s.count + entries
  cwd_eq : t.cwd = s.cwd
  home_eq : t.home = s.home

theorem length_walk {input : String} (hi : s.lookup (s.resolve input) = some i)
    (hn : s.tree? i = some node) : (s.walk input).length = node.size := by
  rw [← List.length_map Visit.glimpse, walk_eq hi hn, Node.length_glimpses]

theorem copy_eq (s : Store) (input destination : String) : s.copy input destination =
    match s.approach? input destination with
    | none => (false, s)
    | some (source, dir, name, u) =>
      if s.find? dir name = some source then (false, s)
      else
        match u.tree? source with
        | none => (false, u)
        | some node => (true, u.attach dir (node.rename name)) := by
  unfold copy approach?
  dsimp only
  cases s.lookup (s.resolve input) with
  | none => rfl
  | some source =>
    dsimp only
    by_cases hroot : source = root
    · rw [if_pos hroot, if_pos hroot]
    · rw [if_neg hroot, if_neg hroot]
      cases s.landing? source (s.resolve destination) with
      | none => rfl
      | some place =>
        obtain ⟨dir, name⟩ := place
        dsimp only
        cases hc : s.clearLanding source dir name with
        | mk done u =>
          cases done with
          | true => rfl
          | false =>
            have hkept := clearLanding_refused (congrArg Prod.fst hc)
            rw [hc] at hkept
            rw [← hkept]
            exact ite_self _

namespace Passage

variable (hp : s.Passage u source dir name S q) (h : s.Forest none)
include hp h

/-- The place that is found taken by the source is the source's own. -/
theorem own_place_iff : s.find? dir name = some source ↔ q ++ [name] = S := by
  have hD : s.descend root (q ++ [name]) = s.find? dir name := by
    rw [descend_append, hp.dir_eq, Option.bind_some]
  rw [← hD]
  refine ⟨fun hd => h.descend_inj hd hp.source_eq, fun he => ?_⟩
  rw [he, hp.source_eq]

/-- The source is the same tree before and after its landing place is cleared. -/
theorem size_eq {before after : Node} (hbefore : s.tree? source = some before)
    (hafter : u.tree? source = some after) : before.size = after.size := by
  have he := (h.standsAt_tree? hp.source_eq hbefore).eq_rename
    (hp.cleared.forest.standsAt_tree? (hp.source_eq_cleared h) hafter)
    fun rest => (hp.sight?_source h rest).symm
  rw [he, Node.size_rename]

theorem copied {input : String} (hS : s.trail input = S) (hapart : q ++ [name] ≠ S)
    (hn : u.tree? source = some node) :
    s.Copied (u.attach dir (node.rename name)) S (q ++ [name]) (s.walk input).length := by
  have hu := hp.cleared
  have hfree := hu.find?_rename_eq_none (mt (hp.own_place_iff h).mp hapart) node
  have hstands := hu.forest.standsAt_tree? (hp.source_eq_cleared h) hn
  have htidy := Node.tidy_rename hstands.tidy name
  have hname : Path.ProperName (node.rename name).name := by
    rw [Node.name_rename]
    exact hp.proper
  obtain ⟨-, hext⟩ := attach_spec _ hu.forest hp.directory_cleared hfree hname htidy
  have hg := attach_grafted _ hu.forest hp.dir_eq_cleared hp.directory_cleared hfree hname htidy
  rw [Node.name_rename] at hg
  have haway (path : List String) (hpath : ¬ q ++ [name] <+: path) :
      (u.attach dir (node.rename name)).sight? path = s.sight? path := by
    rw [hg.elsewhere path hpath, hp.vacated.sight?_eq fun hpre => hpath hpre.2]
  obtain ⟨before, hbefore⟩ := exists_tree? (h.live_of_descend h.root_live hp.source_eq)
  have hlookup : s.lookup (s.resolve input) = some source := by
    rw [lookup_resolve, hS, hp.source_eq]
  constructor
  · intro rest
    rw [hg.landed, Node.sight?_rename, hstands.sight?_eq, hp.sight?_source h]
  · intro path hpath
    exact haway path hpath
  · intro rest
    exact haway _ fun hpre => hp.room.not_above_append h hp.source_eq rest ⟨hapart, hpre⟩
  · have hcount := hp.vacated.count_eq
    simp only [hapart, ne_eq, not_false_eq_true, true_and] at hcount
    rw [hg.count_eq, Node.size_rename, length_walk hlookup hbefore, hp.size_eq h hbefore hn]
    omega
  · rw [hext.cwd_eq, hu.cwd_eq]
  · rw [hext.home_eq, hu.home_eq]

end Passage

theorem copyable_iff : s.Copyable S D ↔ s.Movable S D ∧ D ≠ S :=
  ⟨fun h => ⟨⟨h.exists_source, h.source_below_root, h.room⟩, h.apart⟩,
    fun ⟨h, hapart⟩ => ⟨h.exists_source, h.source_below_root, hapart, h.room⟩⟩

theorem Forest.copy_spec (h : s.Forest none) {input destination : String}
    (hS : s.trail input = S) (hD : s.landing S (s.trail destination) = D) :
    ((s.copy input destination).1 = true ↔ s.Copyable S D) ∧
      ((s.copy input destination).1 = true →
        s.Copied (s.copy input destination).2 S D (s.walk input).length) := by
  rw [copy_eq, copyable_iff, ← exists_approach_iff h hS hD]
  cases happroach : s.approach? input destination with
  | none => simp
  | some found =>
    obtain ⟨source, dir, name, u⟩ := found
    obtain ⟨q, rfl, hp⟩ := exists_passage h hS hD happroach
    have hsome : ∃ found, some (source, dir, name, u) = some found := ⟨_, rfl⟩
    have hown := hp.own_place_iff h
    obtain ⟨node, hnode⟩ := exists_tree? hp.cleared.source_live
    dsimp only
    by_cases hapart : q ++ [name] = S
    · rw [if_pos (hown.mpr hapart)]
      exact ⟨iff_of_false Bool.false_ne_true fun hno => hno.2 hapart, fun hno => by cases hno⟩
    · rw [if_neg (mt hown.mp hapart), hnode]
      dsimp only
      exact ⟨iff_of_true rfl ⟨hsome, hapart⟩, fun _ => hp.copied h hS hapart hnode⟩

end Store
end PocketTerminal.Files
