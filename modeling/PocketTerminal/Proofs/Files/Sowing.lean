import PocketTerminal.Proofs.Files.Growing

/-! # What seeds make of a store

A seed makes the missing directories on the way to its path, and then something new there or
a change of what is there already. Two seeds for different paths, of which no file is on the
way to the other one, can be planted in either order. -/
namespace PocketTerminal.Files

namespace Seed

def trail (seed : Seed) : List String := Path.components (Path.normalize seed.path)

def sight (seed : Seed) : Sight :=
  if seed.isDirectory then .directory seed.pageSection
  else .file (seed.content.getD "") seed.pageSection

def remake (seed : Seed) : Sight → Sight
  | .file content pageSection =>
    if seed.isDirectory then .file content pageSection
    else .file (seed.content.getD "") (seed.pageSection <|> pageSection)
  | .directory pageSection =>
    if seed.isDirectory then .directory (seed.pageSection <|> pageSection)
    else .directory pageSection

variable {seed : Seed} {sight : Sight}

theorem sight_payload (seed : Seed) (name : String) (parent : Option Slot) :
    Entry.sight ⟨name, seed.pageSection, seed.payload, parent⟩ = seed.sight := by
  cases h : seed.isDirectory <;> simp [Entry.sight, payload, Seed.sight, h]

theorem sight_update (seed : Seed) (e : Entry) : (seed.update e).sight = seed.remake e.sight := by
  obtain ⟨name, pageSection, payload, parent⟩ := e
  cases payload <;> cases h : seed.isDirectory <;>
    simp [update, remake, Entry.sight, Entry.isDirectory, Seed.payload, h]

@[simp] theorem isDirectory_sight (seed : Seed) : seed.sight.isDirectory = seed.isDirectory := by
  cases h : seed.isDirectory <;> simp [Seed.sight, Sight.isDirectory, h]

@[simp] theorem isDirectory_remake (seed : Seed) (sight : Sight) :
    (seed.remake sight).isDirectory = sight.isDirectory := by
  cases sight <;> cases h : seed.isDirectory <;> simp [remake, Sight.isDirectory, h]

/-- A directory made on the way to another path is as good as none. -/
theorem remake_fresh (h : seed.isDirectory = true) : seed.remake (.directory none) = seed.sight := by
  simp [remake, Seed.sight, h]

theorem trail_eq_nil (h : Path.normalize seed.path = "/") : seed.trail = [] := by
  rw [trail, h]
  exact Path.spells_root.components

theorem nodup_trails {seeds : List Seed}
    (h : (seeds.map fun seed => Path.normalize seed.path).Nodup) : (seeds.map trail).Nodup := by
  have hmap : ((seeds.map fun seed => Path.normalize seed.path).map Path.components).Nodup := by
    refine h.map_on fun a ha b hb he => ?_
    obtain ⟨x, -, rfl⟩ := List.mem_map.mp ha
    obtain ⟨y, -, rfl⟩ := List.mem_map.mp hb
    exact Path.eq_of_components (Path.isNormal_normalize _) (Path.isNormal_normalize _) he
  rwa [List.map_map] at hmap

end Seed

namespace View

variable {view : View} {a b seed : Seed} {p q : List String}

/-- Whether a seed is planted at all: not at the root, and not below a file. -/
def takes (view : View) (seed : Seed) : Bool :=
  !seed.trail.isEmpty && view.isOpen seed.trail.dropLast

def sow (view : View) (seed : Seed) : View :=
  if view.takes seed then fun p =>
    if p = seed.trail then some ((view p).elim seed.sight seed.remake)
    else view.pave seed.trail.dropLast p
  else view

theorem sow_of_not (h : view.takes seed = false) : view.sow seed = view := by
  rw [sow, h, if_neg Bool.false_ne_true]

theorem sow_at (h : view.takes seed = true) :
    view.sow seed seed.trail = some ((view seed.trail).elim seed.sight seed.remake) := by
  rw [sow, if_pos h, if_pos rfl]

theorem sow_of_ne (h : view.takes seed = true) (hne : p ≠ seed.trail) :
    view.sow seed p = view.pave seed.trail.dropLast p := by
  rw [sow, if_pos h, if_neg hne]

/-- Where no file is new, nothing comes to be in the way that was not. -/
theorem all_sow (h : p = seed.trail → seed.isDirectory = true) :
    (view.sow seed p).all Sight.isDirectory = (view p).all Sight.isDirectory := by
  cases ht : view.takes seed with
  | false => rw [sow_of_not ht]
  | true =>
    by_cases hp : p = seed.trail
    · rw [hp, sow_at ht]
      cases view seed.trail <;> simp [h hp]
    · rw [sow_of_ne ht hp, pave]
      split
      · cases view p <;> rfl
      · rfl

theorem isOpen_sow (h : seed.isDirectory = false → ¬ seed.trail <+: q) :
    (view.sow seed).isOpen q = view.isOpen q := by
  rw [Bool.eq_iff_iff, isOpen, isOpen, List.all_eq_true, List.all_eq_true]
  refine forall₂_congr fun p hp => ?_
  rw [all_sow]
  rintro rfl
  by_contra hfile
  exact h (by simpa using hfile) ((List.mem_inits _ _).mp hp)

theorem takes_sow (h : b.isDirectory = false → ¬ b.trail <+: a.trail) :
    (view.sow b).takes a = view.takes a := by
  rw [takes, isOpen_sow fun hfile hpre => h hfile (hpre.trans (List.dropLast_prefix _)), takes]

section Swap

variable (hne : a.trail ≠ b.trail) (ha : a.isDirectory = false → ¬ a.trail <+: b.trail)
include hne ha

/-- At the path of one of two seeds it does not matter which one comes first. -/
theorem sow_sow_at (hta : view.takes a = true) (htb : view.takes b = true)
    (hb : b.isDirectory = false → ¬ b.trail <+: a.trail) :
    (view.sow a).sow b a.trail = (view.sow b).sow a a.trail := by
  rw [sow_of_ne ((takes_sow ha).trans htb) hne, pave_of_some (sow_at hta),
    sow_at ((takes_sow hb).trans hta), sow_of_ne htb hne]
  cases hv : view a.trail with
  | some sight => rw [pave_of_some hv]
  | none =>
    by_cases hway : a.trail <+: b.trail.dropLast
    · have hdir : a.isDirectory = true := by
        by_contra hfile
        exact ha (by simpa using hfile) (hway.trans (List.dropLast_prefix _))
      rw [pave, if_pos hway, hv, Option.getD_none, Option.elim_some, Option.elim_none,
        Seed.remake_fresh hdir]
    · rw [pave_of_not hway, hv]

/-- Seeds for different paths can be planted in either order, unless one of them is a file
on the way to the other. -/
theorem sow_comm (hb : b.isDirectory = false → ¬ b.trail <+: a.trail) :
    (view.sow a).sow b = (view.sow b).sow a := by
  have hta : (view.sow b).takes a = view.takes a := takes_sow hb
  have htb : (view.sow a).takes b = view.takes b := takes_sow ha
  cases hva : view.takes a with
  | false => rw [sow_of_not hva, sow_of_not (hta.trans hva)]
  | true =>
    cases hvb : view.takes b with
    | false => rw [sow_of_not hvb, sow_of_not (htb.trans hvb)]
    | true =>
      funext p
      by_cases hpa : p = a.trail
      · rw [hpa, sow_sow_at hne ha hva hvb hb]
      · by_cases hpb : p = b.trail
        · rw [hpb, sow_sow_at hne.symm hb hvb hva ha]
        · -- Elsewhere both make no more than the directories on their ways.
          rw [sow_of_ne (htb.trans hvb) hpb, sow_of_ne (hta.trans hva) hpa, pave, pave,
            sow_of_ne hva hpa, sow_of_ne hvb hpb, pave, pave]
          split <;> split <;> rfl

end Swap

theorem foldl_sow_perm {seeds seeds' : List Seed} (hperm : seeds.Perm seeds')
    (hdistinct : (seeds.map Seed.trail).Nodup)
    (hfiles : ∀ a ∈ seeds, ∀ b ∈ seeds, a.isDirectory = false → a.trail <+: b.trail →
      a.trail = b.trail) (view : View) : seeds.foldl sow view = seeds'.foldl sow view := by
  refine hperm.foldl_eq' (fun a ha b hb view => ?_) view
  by_cases hab : a = b
  · rw [hab]
  · have hne : a.trail ≠ b.trail := fun he => hab (List.inj_on_of_nodup_map hdistinct ha hb he)
    exact sow_comm hne (fun hfile hpre => hne (hfiles a ha b hb hfile hpre))
      fun hfile hpre => hne (hfiles b hb a ha hfile hpre).symm

end View

namespace Store

variable {s t : Store} {dir : Slot} {name home : String} {way : List String} {seed : Seed}

def put (s : Store) (dir : Slot) (name : String) (seed : Seed) : Store :=
  match s.find? dir name with
  | some slot => s.modify slot seed.update
  | none => (s.insert dir name seed.pageSection seed.payload).2

theorem sight?_put (h : s.Forest none) (hway : s.descend root way = some dir)
    (hdir : s.isDirectory dir = true) (hname : Path.ProperName name) (p : List String) :
    (s.put dir name seed).sight? p = if p = way ++ [name] then
      some ((s.sight? (way ++ [name])).elim seed.sight seed.remake) else s.sight? p := by
  have hend : s.descend root (way ++ [name]) = s.find? dir name := by
    rw [descend_append, hway, Option.bind_some]
  unfold put
  cases hf : s.find? dir name with
  | some slot =>
    rw [hf] at hend
    obtain ⟨e, he⟩ := h.live_of_descend h.root_live hend
    dsimp only
    rw [sight?_modify (fun e _ => shape_update seed e) h hend he, sight?_of_descend hend, sightAt?,
      he, Seed.sight_update]
    rfl
  | none =>
    rw [hf] at hend
    obtain ⟨new, t, hinsert, hin⟩ := inserted seed.pageSection h hdir hf hname (leaf_seed seed)
    rw [hinsert, hin.sight?_eq h hf hway, h.sight?_eq_none_iff.mpr hend, Seed.sight_payload]
    rfl

theorem put_dirs (s : Store) (dir : Slot) (name : String) (seed : Seed) :
    (s.put dir name seed).cwd = s.cwd ∧ (s.put dir name seed).home = s.home := by
  unfold put
  cases s.find? dir name with
  | some slot => exact ⟨modify_cwd _, modify_home _⟩
  | none => simp [insert]

/-- Of a store, a seed changes what it changes of the view of it, and neither directory. -/
theorem Settled.plant_spec (h : s.Settled) (seed : Seed) :
    (s.plant seed).sight? = View.sow s.sight? seed ∧ (s.plant seed).cwd = s.cwd ∧
      (s.plant seed).home = s.home := by
  have hnormal := Path.isNormal_normalize seed.path
  unfold Store.plant
  dsimp only
  by_cases hroot : Path.normalize seed.path = "/"
  · have hno : View.takes s.sight? seed = false := by
      rw [View.takes, Seed.trail_eq_nil hroot]
      rfl
    rw [if_pos hroot, View.sow_of_not hno]
    exact ⟨rfl, rfl, rfl⟩
  · have hparent := Path.isNormal_parent hnormal
    have htrail : seed.trail = Path.components (Path.parent (Path.normalize seed.path)) ++
        [Path.fileName (Path.normalize seed.path)] := Path.components_eq_parent_append hnormal hroot
    have hname := Path.properName_fileName hnormal hroot
    rw [if_neg hroot]
    generalize Path.fileName (Path.normalize seed.path) = name at *
    generalize Path.parent (Path.normalize seed.path) = path at *
    have htakes : View.takes s.sight? seed = (s.createDir path true).1 := by
      rw [h.forest.createDir_done_iff, trail_of_isNormal hparent, View.takes, htrail]
      simp
    obtain ⟨done, t, hrun, ht, -, hcwd, hhome, hleads⟩ := createDir_spec h.forest path true
    rw [hrun] at htakes ⊢
    cases done with
    | false =>
      have hkept := h.createDir_refused (congrArg Prod.fst hrun)
      rw [hrun] at hkept
      rw [View.sow_of_not htakes]
      exact ⟨congrArg Store.sight? hkept, hcwd, hhome⟩
    | true =>
      have hpaved := h.forest.sight?_createDir (congrArg Prod.fst hrun)
      rw [hrun, trail_of_isNormal hparent] at hpaved
      have hdirectory := hleads rfl rfl
      rw [resolve, Path.resolve_of_isNormal _ _ hparent] at hdirectory
      obtain ⟨dir, hdir, hd⟩ := hasDirectory_iff.mp hdirectory
      obtain ⟨hputcwd, hputhome⟩ := put_dirs t dir name seed
      simp only [hdir]
      refine ⟨?_, hputcwd.trans hcwd, hputhome.trans hhome⟩
      funext p
      refine (sight?_put ht hdir hd hname p).trans ?_
      rw [← htrail, hpaved]
      by_cases hp : p = seed.trail
      · rw [if_pos hp, hp, View.sow_at htakes, View.pave_of_not]
        rw [htrail]
        exact fun hpre => absurd hpre.length_le (by simp)
      · rw [if_neg hp, View.sow_of_ne htakes hp, htrail, List.dropLast_concat]

theorem Settled.foldl_plant_spec (h : s.Settled) (seeds : List Seed) :
    (seeds.foldl Store.plant s).sight? = seeds.foldl View.sow s.sight? ∧
      (seeds.foldl Store.plant s).cwd = s.cwd ∧ (seeds.foldl Store.plant s).home = s.home := by
  induction seeds generalizing s with
  | nil => exact ⟨rfl, rfl, rfl⟩
  | cons seed rest ih =>
    obtain ⟨hsight, hcwd, hhome⟩ := h.plant_spec seed
    obtain ⟨hsights, hcwds, hhomes⟩ := ih (h.plant seed)
    rw [hsight] at hsights
    exact ⟨hsights, hcwds.trans hcwd, hhomes.trans hhome⟩

/-- In whatever order seeds come, what they make looks the same, as long as no two are for
one path and none is below the path of a file. -/
theorem ofSeeds_perm {seeds seeds' : List Seed} (hperm : seeds.Perm seeds')
    (hdistinct : (seeds.map fun seed => Path.normalize seed.path).Nodup)
    (hfiles : ∀ a ∈ seeds, ∀ b ∈ seeds, a.isDirectory = false → a.trail <+: b.trail →
      a.trail = b.trail) (home : String) : (ofSeeds seeds home).Alike (ofSeeds seeds' home) := by
  have hstart := settled_create home
  obtain ⟨hsight, hcwd, hhome⟩ := hstart.foldl_plant_spec seeds
  obtain ⟨hsight', hcwd', hhome'⟩ := hstart.foldl_plant_spec seeds'
  have hsame := View.foldl_sow_perm hperm (Seed.nodup_trails hdistinct) hfiles (create home).sight?
  exact alike_of_sight?_eq (settled_ofSeeds seeds home).forest (settled_ofSeeds seeds' home).forest
    (fun names => congrFun (hsight.trans (hsame.trans hsight'.symm)) names)
    (hcwd.trans hcwd'.symm) (hhome.trans hhome'.symm)

/-- A directory gets its section after it has been made for a file in it, and a file is
skipped where the home directory is, first or last. -/
theorem ofSeeds_perm_reverse :
    ∃ seeds : List Seed, seeds = [{ path := "/a/b", content := some "text" },
        { path := "/a", pageSection := some "about", isDirectory := true },
        { path := "/home/", content := some "lost" }] ∧
      (seeds.map fun seed => Path.normalize seed.path).Nodup ∧
      (∀ a ∈ seeds, ∀ b ∈ seeds, a.isDirectory = false → a.trail <+: b.trail → a.trail = b.trail) ∧
      (ofSeeds seeds "/home/visitor").Alike (ofSeeds seeds.reverse "/home/visitor") := by
  have hdistinct : (([{ path := "/a/b", content := some "text" },
      { path := "/a", pageSection := some "about", isDirectory := true },
      { path := "/home/", content := some "lost" }] : List Seed).map
        fun seed => Path.normalize seed.path).Nodup := by decide +kernel
  have hfiles : ∀ a ∈ ([{ path := "/a/b", content := some "text" },
      { path := "/a", pageSection := some "about", isDirectory := true },
      { path := "/home/", content := some "lost" }] : List Seed),
      ∀ b ∈ ([{ path := "/a/b", content := some "text" },
        { path := "/a", pageSection := some "about", isDirectory := true },
        { path := "/home/", content := some "lost" }] : List Seed),
        a.isDirectory = false → a.trail <+: b.trail → a.trail = b.trail := by decide +kernel
  exact ⟨_, rfl, hdistinct, hfiles,
    ofSeeds_perm (List.reverse_perm _).symm hdistinct hfiles "/home/visitor"⟩

end Store
end PocketTerminal.Files
