import PocketTerminal.Proofs.Files.Copies

/-! # What a removal does

A removal answers with the whole tree that stood at its path, and leaves nothing at or below
the path and all else as it was. So it takes back a copy that has landed where nothing was. -/
namespace PocketTerminal.Files.Store

variable {s t u : Store} {i top : Slot} {a p names path S D : List String} {node : Node}

@[simp] theorem detach_cwd : (s.detach i).cwd = s.cwd := by simp [detach]

@[simp] theorem detach_home : (s.detach i).home = s.home := by simp [detach]

theorem sight?_detach (h : s.Forest none) (hroot : top ≠ root) (htop : s.descend root a = some top) :
    (s.detach top).sight? p = if a <+: p then none else s.sight? p := by
  have hl := h.live_of_descend h.root_live htop
  rw [sight?, descend_detach h hl hroot htop]
  by_cases hp : a <+: p
  · rw [if_pos hp, if_pos hp, Option.bind_none]
  · rw [if_neg hp, if_neg hp, sight?]
    cases hi : s.descend root p with
    | none => rfl
    | some i => exact sightAt?_detach h hl fun hw => hp ((h.within_iff_starts htop hi).mp hw)

/-- A directory has no entries where nothing stands at any name in it. -/
theorem Forest.children_eq_nil_iff (h : s.Forest none) (hi : s.descend root path = some i) :
    s.children i = [] ↔ ∀ name, s.sight? (path ++ [name]) = none := by
  have hfind (name : String) : s.sight? (path ++ [name]) = none ↔ s.find? i name = none := by
    rw [h.sight?_eq_none_iff, descend_append, hi, Option.bind_some]
  simp only [hfind]
  constructor
  · intro hnil name
    rw [find?, hnil]
    rfl
  · intro hnone
    refine List.eq_nil_iff_forall_not_mem.mpr fun c hc => ?_
    obtain ⟨name, hname⟩ := (h.live_of_mem_children hc).name?
    have hfound := h.find?_eq_some_iff.mpr ⟨hc, hname⟩
    rw [hnone] at hfound
    cases hfound

theorem children_of_file (hfile : s.isDirectory i = false) :
    s.children i = [] := by
  refine List.eq_nil_iff_forall_not_mem.mpr fun c hc => ?_
  rw [isDirectory_of_mem_children hc] at hfile
  cases hfile

structure Removable (s : Store) (path : List String) (recursive : Bool) : Prop where
  exists_entry : (s.sight? path).isSome = true
  /-- Only with `recursive` does a directory go that has entries. -/
  bare : s.leadsToDirectory path = false ∨ (∀ name, s.sight? (path ++ [name]) = none) ∨
    recursive = true

structure Removed (s t : Store) (path : List String) (entries : Nat) : Prop where
  gone : ∀ rest, t.sight? (path ++ rest) = none
  elsewhere : ∀ other, ¬ path <+: other → t.sight? other = s.sight? other
  count_eq : t.count + entries = s.count
  home_eq : t.home = s.home
  cwd_eq : t.cwd =
    if t.leadsToDirectory (Path.components s.cwd) then s.cwd
    else if t.leadsToDirectory (Path.components s.home) then s.home
    else "/"

/-- A removal's answer and what it leaves, where its input leads to a path. -/
structure RemovesAt (s : Store) (input : String) (recursive : Bool) (path : List String) : Prop where
  done_iff : (∃ node, (s.remove input recursive).1 = .removed node) ↔ s.Removable path recursive
  /-- The answer is the whole tree that was at the path, under its name. -/
  answer : ∀ node, (s.remove input recursive).1 = .removed node →
    s.StandsAt path node ∧ path.getLast? = some node.name
  left : ∀ node, (s.remove input recursive).1 = .removed node →
    s.Removed (s.remove input recursive).2 path node.size

theorem removable_iff {recursive : Bool} (h : s.Forest none) (hi : s.descend root path = some i) :
    s.Removable path recursive ↔ s.children i = [] ∨ recursive = true := by
  rw [h.children_eq_nil_iff hi]
  refine ⟨fun hr => hr.bare.elim (fun hfile => .inl ?_) id, fun hr => ⟨?_, .inr hr⟩⟩
  · rw [leadsToDirectory_of_descend hi] at hfile
    exact (h.children_eq_nil_iff hi).mp (children_of_file hfile)
  · exact h.sight?_isSome_iff.mpr ⟨i, hi⟩

theorem removed_detach (h : s.Forest none) (hroot : i ≠ root) (hi : s.descend root path = some i)
    (hn : s.tree? i = some node) : s.Removed (s.detach i).repairCwd path node.size := by
  have hl := h.live_of_descend h.root_live hi
  have hsight (p : List String) :
      (s.detach i).repairCwd.sight? p = if path <+: p then none else s.sight? p := by
    rw [sight?_congr repairCwd_slots, sight?_detach h hroot hi]
  constructor
  · intro rest
    rw [hsight, if_pos (List.prefix_append path rest)]
  · intro other hother
    rw [hsight, if_neg hother]
  · rw [repairCwd_count, h.size_of_tree? hl hn]
    exact count_detach h hl hroot
  · rw [repairCwd_home, detach_home]
  · rw [repairCwd_cwd, detach_cwd, detach_home]

theorem resolve_eq_root_iff {input : String} : s.resolve input = "/" ↔ s.trail input = [] := by
  have hroot : Path.components "/" = [] := Path.spells_root.components
  refine ⟨fun he => by rw [trail, he, hroot], fun he => ?_⟩
  exact Path.eq_of_components (Path.isNormal_resolve ..) Path.spells_root.isNormal
    (he.trans hroot.symm)

theorem remove_root {input : String} {recursive : Bool} (hroot : s.resolve input = "/") :
    s.remove input recursive = (.protectedRoot, s) := if_pos hroot

/-- A removal either goes through or finds what is at the path not to be removable. -/
theorem Forest.remove_cases (h : s.Forest none) {input : String} (recursive : Bool)
    (hne : s.trail input ≠ []) :
    (s.Removable (s.trail input) recursive ∧ ∃ i node, s.descend root (s.trail input) = some i ∧
        i ≠ root ∧ s.tree? i = some node ∧
        s.remove input recursive = (.removed node, (s.detach i).repairCwd)) ∨
      (¬ s.Removable (s.trail input) recursive ∧ (s.remove input recursive).1.isDone = false) := by
  unfold remove
  dsimp only
  rw [if_neg (mt resolve_eq_root_iff.mp hne), lookup_resolve]
  cases hi : s.descend root (s.trail input) with
  | none =>
    refine .inr ⟨fun hr => ?_, rfl⟩
    have hsome := hr.exists_entry
    rw [h.sight?_eq_none_iff.mpr hi] at hsome
    cases hsome
  | some i =>
    have hroot : i ≠ root := by
      rintro rfl
      exact hne (h.descend_inj hi rfl)
    obtain ⟨node, hnode⟩ := exists_tree? (h.live_of_descend h.root_live hi)
    rw [removable_iff h hi]
    dsimp only
    rw [hnode]
    by_cases hkept : (!(s.children i).isEmpty && !recursive) = true
    · rw [if_pos hkept]
      simp only [Bool.and_eq_true, Bool.not_eq_true', List.isEmpty_eq_false_iff] at hkept
      exact .inr ⟨by simp [hkept.1, hkept.2], rfl⟩
    · rw [if_neg hkept]
      refine .inl ⟨?_, i, node, rfl, hroot, hnode, rfl⟩
      by_contra hno
      rw [not_or] at hno
      exact hkept (by simp [hno.1, hno.2])

theorem Forest.removesAt (h : s.Forest none) {input : String} (hpath : s.trail input = path)
    (hne : path ≠ []) (recursive : Bool) : s.RemovesAt input recursive path := by
  subst hpath
  rcases h.remove_cases recursive hne with ⟨hr, i, node, hi, hroot, hn, heq⟩ | ⟨hno, hkept⟩
  · have hname : (s.trail input).getLast? = some node.name :=
      (name?_of_descend h hroot hi).symm.trans (name_of_treeAt hn)
    constructor
    · exact iff_of_true ⟨node, congrArg Prod.fst heq⟩ hr
    · intro other hother
      rw [heq] at hother
      cases hother
      exact ⟨h.standsAt_tree? hi hn, hname⟩
    · intro other hother
      rw [heq] at hother ⊢
      cases hother
      exact removed_detach h hroot hi hn
  · have hnever (node : Node) : (s.remove input recursive).1 ≠ .removed node := fun he => by
      rw [he] at hkept
      cases hkept
    exact ⟨iff_of_false (fun ⟨node, hnode⟩ => hnever node hnode) hno,
      fun node hnode => absurd hnode (hnever node), fun node hnode => absurd hnode (hnever node)⟩

theorem trail_congr (hcwd : t.cwd = s.cwd) (hhome : t.home = s.home) (input : String) :
    t.trail input = s.trail input := by
  rw [trail, trail, resolve, resolve, hcwd, hhome]

theorem leadsToDirectory_congr (h : ∀ p, t.sight? p = s.sight? p) :
    t.leadsToDirectory p = s.leadsToDirectory p := by
  rw [leadsToDirectory, h, leadsToDirectory]

/-- Where nothing was at the place that a copy has landed, a removal there leaves all as it
was before the copy. -/
theorem Copied.sight?_removed {entries less : Nat} (hc : s.Copied t S D entries)
    (hr : t.Removed u D less) (h : s.Forest none) (hfree : s.sight? D = none) (p : List String) :
    u.sight? p = s.sight? p := by
  by_cases hp : D <+: p
  · obtain ⟨rest, rfl⟩ := hp
    have hbelow : s.sight? (D ++ rest) = none := by
      rw [h.sight?_eq_none_iff] at hfree ⊢
      rw [descend_trans, hfree, Option.bind_none]
    rw [hr.gone, hbelow]
  · rw [hr.elsewhere p hp, hc.elsewhere p hp]

theorem Settled.copy_undone (h : s.Settled) {source destination input : String}
    (hdone : (s.copy source destination).1 = true)
    (hD : s.landing (s.trail source) (s.trail destination) = s.trail input)
    (hfree : s.sight? (s.trail input) = none) :
    ∃ node, ((s.copy source destination).2.remove input true).1 = .removed node ∧
      ((s.copy source destination).2.remove input true).2.Alike s := by
  have ht : (s.copy source destination).2.Settled := h.perform (.copy source destination)
  obtain ⟨hcopyable, hcopied⟩ := h.forest.copy_spec rfl hD
  have hroom := hcopyable.mp hdone
  have hc := hcopied hdone
  have hr := ht.forest.removesAt (trail_congr hc.cwd_eq hc.home_eq input) hroom.room.below_root true
  have hthere : ((s.copy source destination).2.sight? (s.trail input)).isSome = true := by
    have hlanded := hc.landed []
    rw [List.append_nil, List.append_nil] at hlanded
    rw [hlanded]
    exact hroom.exists_source
  obtain ⟨node, hnode⟩ := hr.done_iff.mpr ⟨hthere, .inr (.inr rfl)⟩
  have hleft := hr.left node hnode
  have hsight := hc.sight?_removed hleft h.forest hfree
  refine ⟨node, hnode, alike_of_sight?_eq (ht.perform (.remove input true)).forest h.forest hsight
    ?_ (hleft.home_eq.trans hc.home_eq)⟩
  have hcwd := h.cwd_directory
  rw [hasDirectory_eq] at hcwd
  rw [hleft.cwd_eq, hc.cwd_eq, leadsToDirectory_congr hsight, hcwd, if_pos rfl]

/-- For every store that comes about, whatever is typed for a path below the root: a removal
is done exactly where something is at the path that may go, answers with the whole tree that
was there, and leaves all else. Removing what a copy has put where nothing was leaves a
store like the one before the copy. -/
theorem run_remove (origin : Origin) (changes : List Change) :
    (∀ input recursive, (run origin changes).trail input ≠ [] →
      (run origin changes).RemovesAt input recursive ((run origin changes).trail input)) ∧
    ∀ source destination input, ((run origin changes).copy source destination).1 = true →
      (run origin changes).landing ((run origin changes).trail source)
          ((run origin changes).trail destination) = (run origin changes).trail input →
        (run origin changes).sight? ((run origin changes).trail input) = none →
          ∃ node, (((run origin changes).copy source destination).2.remove input true).1 =
              .removed node ∧
            (((run origin changes).copy source destination).2.remove input true).2.Alike
              (run origin changes) := by
  have h := (settled_origin origin).foldl_perform changes
  exact ⟨fun input recursive hne => h.forest.removesAt rfl hne recursive,
    fun source destination input hdone hD hfree => h.copy_undone hdone hD hfree⟩

/-- A directory with a file in it goes, and so does its copy under another name. -/
theorem run_remove_copied :
    ∃ s, run (.empty "/home") [.createDir "a/b" true, .createFile "a/b/f" "text"] = s ∧
      s.Removable ["home", "a"] true ∧ s.RemovesAt "a" true (s.trail "a") ∧
      ∃ node, ((s.copy "a" "c").2.remove "c" true).1 = .removed node ∧
        ((s.copy "a" "c").2.remove "c" true).2.Alike s := by
  obtain ⟨hremove, hundone⟩ :=
    run_remove (.empty "/home") [.createDir "a/b" true, .createFile "a/b/f" "text"]
  have hpath : (run (.empty "/home") [.createDir "a/b" true,
      .createFile "a/b/f" "text"]).trail "a" = ["home", "a"] := by decide +kernel
  have hthere : ((run (.empty "/home") [.createDir "a/b" true,
      .createFile "a/b/f" "text"]).sight? ["home", "a"]).isSome = true := by decide +kernel
  exact ⟨_, rfl, ⟨hthere, .inr (.inr rfl)⟩, hremove "a" true (by rw [hpath]; simp),
    hundone "a" "c" "c" (by decide +kernel) (by decide +kernel) (by decide +kernel)⟩

end PocketTerminal.Files.Store
