import PocketTerminal.Files.Seeds
import PocketTerminal.Proofs.Files.Relocating

/-! # Building stores

A store starts as a forest of one directory. Making the home directory, planting seed
records one after another and building anew all leave settled stores. -/
namespace PocketTerminal.Files.Store

variable {s : Store} {i : Slot} {home path : String}

theorem at?_bare (i : Slot) : (bare home).at? i = if i = root then some rootEntry else none := by
  cases i with
  | zero => rfl
  | succ i => simp [at?, bare, root]

theorem forest_bare (home : String) : (bare home).Forest none := by
  have hparents (i : Slot) : (bare home).parent? i = none := by
    by_cases hi : i = root <;> simp [parent?, at?_bare, hi, rootEntry]
  have hlistings (i : Slot) : (bare home).children i = [] := by
    by_cases hi : i = root <;> simp [children, at?_bare, hi, rootEntry, Entry.children]
  have hroot {i : Slot} (hi : (bare home).Live i) : i = root := by
    obtain ⟨e, he⟩ := hi
    by_contra hne
    rw [at?_bare, if_neg hne] at he
    cases he
  exact {
    free_nodup := List.nodup_nil
    mem_free := fun {i} => by
      rw [at?_bare]
      have hsize : (bare home).slots.size = 1 := rfl
      have hfree : (bare home).free = [] := rfl
      rw [hsize, hfree]
      by_cases hi : i = 0 <;> simp [hi, root]
    root_directory := rfl
    root_top := hparents root
    loose_top := fun hi => by cases hi
    eq_of_top := fun hi _ => .inl (hroot hi)
    mem_children := fun {d i} => by simp [hlistings, hparents]
    sorted := fun d => by simp [hlistings]
    proper := fun hi hn => absurd (hroot (live_of_name? hn)) hi
    grounded := fun {i} hi => ⟨0, .top hi (hparents i)⟩ }

theorem settled_create (home : String) : (create home).Settled := by
  have hbare := forest_bare (Path.normalize home)
  have hnormal := Path.isNormal_normalize home
  obtain ⟨done, t, hrun, ht, -, hcwd, hhome, hdone⟩ := createDir_spec hbare (Path.normalize home) true
  have hthome : t.home = Path.normalize home := hhome
  unfold create
  dsimp only
  rw [hrun]
  cases done with
  | true =>
    have hd := hdone rfl rfl
    rw [resolve, Path.resolve_of_isNormal _ _ hnormal] at hd
    refine ⟨ht.with_cwd _, hnormal, ?_, ht.hasDirectory_with_cwd _ hd⟩
    rw [hthome]
    exact hnormal
  | false =>
    refine ⟨ht, ?_, ?_, ?_⟩
    · rw [hcwd]
      exact Path.spells_root.isNormal
    · rw [hthome]
      exact hnormal
    · rw [hcwd]
      exact ht.hasDirectory_root

theorem shape_update (seed : Seed) (e : Entry) : (seed.update e).shape = e.shape := by
  obtain ⟨name, pageSection, payload, parent⟩ := e
  unfold Seed.update
  split
  · rfl
  · next hkind =>
    cases payload with
    | text content =>
      have hfile : seed.isDirectory = false := by simpa [Entry.isDirectory] using hkind
      simp [Entry.shape, Entry.isDirectory, Entry.children, Seed.payload, hfile]
    | children slots =>
      have hdir : seed.isDirectory = true := by simpa [Entry.isDirectory] using hkind
      simp [Entry.shape, Entry.isDirectory, Entry.children, hdir]

theorem leaf_seed (seed : Seed) : seed.payload.Leaf := by
  unfold Seed.payload
  split
  · exact leaf_empty
  · exact leaf_text _

theorem Settled.plant (h : s.Settled) (seed : Seed) : (s.plant seed).Settled := by
  have hnormal := Path.isNormal_normalize seed.path
  unfold Store.plant
  dsimp only
  split
  · exact h
  · next hne =>
    obtain ⟨done, t, hrun, ht, hk, hcwd, hhome, hdone⟩ :=
      createDir_spec h.forest (Path.parent (Path.normalize seed.path)) true
    have hsettled : t.Settled := h.of_keeps ht hk hcwd hhome
    rw [hrun]
    cases done with
    | false => exact hsettled
    | true =>
      have hd := hdone rfl rfl
      rw [resolve, Path.resolve_of_isNormal _ _ (Path.isNormal_parent hnormal)] at hd
      obtain ⟨dir, hdir, hdirectory⟩ := hasDirectory_iff.mp hd
      simp only [hdir]
      split
      · exact hsettled.modify fun e _ => shape_update seed e
      · next hfree =>
        obtain ⟨new, u, hinsert, hu, -, -, hext⟩ := insert_spec seed.pageSection ht hdirectory hfree
          (Path.properName_fileName hnormal hne) (leaf_seed seed)
        rw [hinsert]
        exact hsettled.of_extends hu hext

theorem settled_ofSeeds (seeds : List Seed) (home : String) : (ofSeeds seeds home).Settled := by
  unfold ofSeeds
  have hstart := settled_create home
  generalize create home = start at hstart
  induction seeds generalizing start with
  | nil => exact hstart
  | cons seed rest ih => exact ih (start.plant seed) (hstart.plant seed)

theorem Settled.rebuild (h : s.Settled) (seeds : List Seed) (home : String) :
    (s.rebuild seeds home).Settled := by
  have hfresh := settled_ofSeeds seeds home
  unfold Store.rebuild
  dsimp only
  split
  · next hd =>
    exact ⟨hfresh.forest.with_cwd _, h.cwd_normal, hfresh.home_normal,
      hfresh.forest.hasDirectory_with_cwd _ hd⟩
  · exact hfresh

end PocketTerminal.Files.Store
