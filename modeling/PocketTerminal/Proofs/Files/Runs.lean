import PocketTerminal.Proofs.Files.Guarded

/-! # Runs of changes

Whatever changes a store goes through, in whatever order, it stays well formed, and no step
of any of them meets an empty slot. -/
namespace PocketTerminal.Files

inductive Origin where
  | empty (home : String)
  | seeded (seeds : List Seed) (home : String)

inductive Change where
  | rebuild (seeds : List Seed) (home : String)
  | changeDir (input : String)
  | createDir (input : String) (recursive : Bool)
  | createFile (input content : String)
  | writeFile (input content : String) (mode : WriteMode)
  | remove (input : String) (recursive : Bool)
  | copy (source destination : String)
  | move (source destination : String)

namespace Store

variable {s : Store} {i : Slot}

def origin : Origin → Store
  | .empty home => create home
  | .seeded seeds home => ofSeeds seeds home

def perform (s : Store) : Change → Store
  | .rebuild seeds home => s.rebuild seeds home
  | .changeDir input => (s.changeDir input).2
  | .createDir input recursive => (s.createDir input recursive).2
  | .createFile input content => (s.createFile input content).2
  | .writeFile input content mode => (s.writeFile input content mode).2
  | .remove input recursive => (s.remove input recursive).2
  | .copy source destination => (s.copy source destination).2
  | .move source destination => (s.move source destination).2

def run (origin : Origin) (changes : List Change) : Store :=
  changes.foldl perform (Store.origin origin)

/-- The slots from a slot up to the root, each listed by the next and none of them twice. -/
def IsChainToRoot (s : Store) (i : Slot) (chain : List Slot) : Prop :=
  chain.head? = some i ∧ chain.getLast? = some root ∧ chain.Nodup ∧
    chain.IsChain fun child dir => s.parent? child = some dir ∧ child ∈ s.children dir

structure WellFormed (s : Store) : Prop where
  root_entry : ∃ e, s.at? root = some e ∧ e.isDirectory = true ∧ e.parent = none
  free_nodup : s.free.Nodup
  mem_free_iff : ∀ i, i ∈ s.free ↔ i < s.slots.size ∧ s.at? i = none
  /-- Below the root an entry is listed by its parent, once, and by no other entry. -/
  listed : ∀ i e, s.at? i = some e → i ≠ root →
    ∃ dir d, e.parent = some dir ∧ s.at? dir = some d ∧ d.isDirectory = true ∧
      d.children.count i = 1 ∧ ∀ j f, s.at? j = some f → i ∈ f.children → j = dir
  /-- What is listed is there, and the names go up strictly. -/
  children_sorted : ∀ dir d, s.at? dir = some d → d.children.Pairwise s.Before ∧
    ∀ i ∈ d.children, s.Live i
  proper : ∀ i e, s.at? i = some e → i ≠ root → Path.ProperName e.name
  chain : ∀ i, s.Live i → ∃ chain, s.IsChainToRoot i chain
  count_eq : s.count = (s.walk "/").length
  cwd_normal : Path.isNormal s.cwd = true
  cwd_directory : s.hasDirectory s.cwd = true

theorem Forest.count_children (h : s.Forest none) {dir : Slot} (hi : i ∈ s.children dir) :
    (s.children dir).count i = 1 :=
  List.count_eq_one_of_mem (h.children_nodup dir) hi

theorem Forest.exists_chainToRoot (h : s.Forest none) (hi : s.Live i) :
    ∃ chain, s.IsChainToRoot i chain := by
  obtain ⟨n, hn⟩ := h.grounded hi
  obtain ⟨chain, hlen, hnodup, hhead, hdepth, hchain, hlast⟩ := hn.exists_chain
  have hne : chain ≠ [] := by
    rintro rfl
    cases hhead
  refine ⟨chain, hhead, ?_, hnodup, hchain.imp fun child dir hp => ⟨hp, h.mem_children.mpr hp⟩⟩
  have hend := List.getLast?_eq_some_getLast hne
  obtain ⟨k, -, hk⟩ := hdepth _ (List.getLast_mem hne)
  have htop := (h.eq_of_top hk.live (hlast _ hend)).resolve_right (by simp)
  rw [hend, htop]

theorem Settled.wellFormed (h : s.Settled) : s.WellFormed where
  root_entry := by
    obtain ⟨e, he, hd⟩ := isDirectory_iff.mp h.forest.root_directory
    exact ⟨e, he, hd, (parent?_eq he).symm.trans h.forest.root_top⟩
  free_nodup := h.forest.free_nodup
  mem_free_iff _ := h.forest.mem_free
  listed i e he hne := by
    obtain ⟨dir, hp⟩ := h.forest.exists_parent ⟨e, he⟩ hne
    obtain ⟨d, hd, hdir⟩ := isDirectory_iff.mp (h.forest.directory_of_parent hp)
    have hcount := h.forest.count_children (h.forest.mem_children.mpr hp)
    rw [children_eq hd] at hcount
    refine ⟨dir, d, (parent?_eq he).symm.trans hp, hd, hdir, hcount, fun j f hf hi => ?_⟩
    have hj := h.forest.mem_children.mp (mem_children_iff.mpr ⟨f, hf, hi⟩)
    rw [hp] at hj
    exact (Option.some.inj hj).symm
  children_sorted dir d hd := by
    rw [← children_eq hd]
    exact ⟨h.forest.sorted dir, fun i => h.forest.live_of_mem_children⟩
  proper i e he hne := h.forest.proper hne (name?_eq he)
  chain _ := h.forest.exists_chainToRoot
  count_eq := h.forest.count_eq_length_walk
  cwd_normal := h.cwd_normal
  cwd_directory := h.cwd_directory

theorem settled_origin (origin : Origin) : (Store.origin origin).Settled := by
  cases origin with
  | empty home => exact settled_create home
  | seeded seeds home => exact settled_ofSeeds seeds home

theorem Settled.perform (h : s.Settled) (change : Change) : (s.perform change).Settled := by
  cases change with
  | rebuild seeds home => exact h.rebuild seeds home
  | changeDir input => exact h.changeDir input
  | createDir input recursive => exact h.createDir input recursive
  | createFile input content => exact h.createFile input content
  | writeFile input content mode => exact h.writeFile input content mode
  | remove input recursive => exact h.remove input recursive
  | copy source destination => exact h.copy source destination
  | move source destination => exact h.move source destination

theorem Settled.foldl_perform (h : s.Settled) (changes : List Change) :
    (changes.foldl Store.perform s).Settled := by
  induction changes generalizing s with
  | nil => exact h
  | cons change rest ih => exact ih (h.perform change)

theorem forest_run (origin : Origin) (changes : List Change) : (run origin changes).Forest none :=
  ((settled_origin origin).foldl_perform changes).forest

end Store

namespace Guarded

def origin : Origin → Option Store
  | .empty home => create home
  | .seeded seeds home => ofSeeds seeds home

def perform (s : Store) : Change → Option Store
  | .rebuild seeds home => rebuild s seeds home
  | .changeDir input => (changeDir s input).map Prod.snd
  | .createDir input recursive => (createDir s input recursive).map Prod.snd
  | .createFile input content => (createFile s input content).map Prod.snd
  | .writeFile input content mode => (writeFile s input content mode).map Prod.snd
  | .remove input recursive => (remove s input recursive).map Prod.snd
  | .copy source destination => (copy s source destination).map Prod.snd
  | .move source destination => (move s source destination).map Prod.snd

def run (origin : Origin) (changes : List Change) : Option Store := do
  changes.foldlM perform (← Guarded.origin origin)

theorem origin_eq (origin : Origin) : Guarded.origin origin = some (Store.origin origin) := by
  cases origin with
  | empty home => exact create_eq home
  | seeded seeds home => exact ofSeeds_eq seeds home

theorem perform_eq {s : Store} (h : s.Settled) (change : Change) :
    perform s change = some (s.perform change) := by
  cases change with
  | rebuild seeds home => exact rebuild_eq s seeds home
  | changeDir input => rw [perform, changeDir_eq h.forest, Store.perform, Option.map_some]
  | createDir input recursive => rw [perform, createDir_eq h.forest, Store.perform, Option.map_some]
  | createFile input content => rw [perform, createFile_eq h.forest, Store.perform, Option.map_some]
  | writeFile input content mode => rw [perform, writeFile_eq h.forest, Store.perform, Option.map_some]
  | remove input recursive => rw [perform, remove_eq h.forest, Store.perform, Option.map_some]
  | copy source destination => rw [perform, copy_eq h.forest, Store.perform, Option.map_some]
  | move source destination => rw [perform, move_eq h.forest, Store.perform, Option.map_some]

theorem foldlM_perform_eq {s : Store} (h : s.Settled) (changes : List Change) :
    changes.foldlM perform s = some (changes.foldl Store.perform s) := by
  induction changes generalizing s with
  | nil => rfl
  | cons change rest ih =>
    rw [List.foldlM_cons, perform_eq h change]
    exact ih (h.perform change)

end Guarded

/-- After any changes a store is well formed. No slot that they read, change or give back
on the way is empty, and no climb over parents goes on without an end. -/
theorem Store.run_wellFormed (origin : Origin) (changes : List Change) :
    (Store.run origin changes).WellFormed ∧
      Guarded.run origin changes = some (Store.run origin changes) := by
  have hstart := Store.settled_origin origin
  refine ⟨(hstart.foldl_perform changes).wellFormed, ?_⟩
  rw [Guarded.run, Guarded.origin_eq]
  exact Guarded.foldlM_perform_eq hstart changes

end PocketTerminal.Files
