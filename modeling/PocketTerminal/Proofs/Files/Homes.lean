import PocketTerminal.Proofs.Files.NormalForms
import PocketTerminal.Proofs.Files.Replanting
import PocketTerminal.Proofs.Files.Resolutions

/-! # Home and working directory

A store is made with a home in normal form, which is its working directory. One that is built anew
from seed records keeps its working directory where that is a directory of the new tree, and goes
home where it is not; to build it once more changes nothing. The last component of a path is that
of its normal form only where it is one that an entry can have. -/
namespace PocketTerminal.Path

variable {path : String}

/-- A path is its last component, or has a slash right before it. -/
theorem exists_baseChars (path : List Char) :
    path = baseChars path ∨ ∃ dir, path = dir ++ '/' :: baseChars path := by
  have hparts : path = (path.reverse.dropWhile (· != '/')).reverse ++ baseChars path := by
    rw [baseChars, ← List.reverse_append, List.takeWhile_append_dropWhile, List.reverse_reverse]
  cases hdrop : path.reverse.dropWhile (· != '/') with
  | nil => exact .inl (by rw [hdrop] at hparts; exact hparts)
  | cons c rest =>
    have hc := List.head?_dropWhile_not (· != '/') path.reverse
    rw [hdrop] at hc
    obtain rfl : c = '/' := bne_eq_false_iff_eq.mp hc
    refine .inr ⟨rest.reverse, ?_⟩
    rw [hdrop, List.reverse_cons, List.append_assoc] at hparts
    exact hparts

/-- What is read last is the last name, if it can be a name. -/
theorem reduce_of_properName (h : ProperName (fileName path)) :
    ∃ above, reduce path.toList = above ++ [baseChars path.toList] := by
  have hbase : ∀ above, ((baseChars path.toList).splitOn '/').foldl enter above =
      baseChars path.toList :: above := by
    intro above
    have hproper := h.properChars
    rw [fileName, String.toList_ofList] at hproper
    rw [List.splitOn_eq_singleton hproper.2.2.2,
      foldl_enter_proper (List.forall_mem_singleton.mpr hproper)]
    rfl
  rcases exists_baseChars path.toList with hpath | ⟨dir, hpath⟩
  · have hread := congrArg List.reverse (hbase [])
    rw [← hpath] at hread ⊢
    exact ⟨[], hread⟩
  · have hread := reduce_append dir (baseChars path.toList)
    rw [hbase, List.reverse_cons, List.reverse_reverse, ← hpath] at hread
    exact ⟨reduce dir, hread⟩

theorem fileName_normalize_iff :
    fileName (normalize path) = fileName path ↔
      ProperName (fileName path) ∨ fileName path = "" ∧ normalize path = "/" := by
  constructor
  · intro hname
    by_cases hroot : normalize path = "/"
    · refine .inr ⟨?_, hroot⟩
      rw [← hname, hroot]
      decide
    · refine .inl ?_
      rw [← hname]
      exact properName_fileName (isNormal_normalize path) hroot
  · rintro (hname | ⟨hempty, hroot⟩)
    · obtain ⟨above, habove⟩ := reduce_of_properName hname
      have hspells := spells_reduce path
      rw [habove] at hspells
      exact hspells.fileName
    · rw [hempty, hroot]
      decide

end PocketTerminal.Path

namespace PocketTerminal.Files.Store

variable {s : Store} {seeds : List Seed} {home : String}

theorem create_dirs (home : String) :
    (create home).cwd = Path.normalize home ∧ (create home).home = Path.normalize home := by
  have hmade := createDir_bare home
  obtain ⟨done, t, hrun, -, -, -, hhome, -⟩ :=
    createDir_spec (forest_bare (Path.normalize home)) (Path.normalize home) true
  rw [hrun] at hmade
  obtain rfl : done = true := hmade
  unfold create
  dsimp only
  rw [hrun]
  exact ⟨rfl, hhome⟩

theorem ofSeeds_dirs (seeds : List Seed) (home : String) :
    (ofSeeds seeds home).cwd = Path.normalize home ∧
      (ofSeeds seeds home).home = Path.normalize home := by
  obtain ⟨-, hcwd, hhome⟩ := (settled_create home).foldl_plant_spec seeds
  obtain ⟨hcreated, hcreated'⟩ := create_dirs home
  exact ⟨hcwd.trans hcreated, hhome.trans hcreated'⟩

theorem rebuild_eq (s : Store) (seeds : List Seed) (home : String) :
    s.rebuild seeds home = { ofSeeds seeds home with
      cwd := if ((ofSeeds seeds home).sight? (Path.components s.cwd)).any Sight.isDirectory
        then s.cwd else Path.normalize home } := by
  have hthere := hasDirectory_eq (s := ofSeeds seeds home) s.cwd
  rw [leadsToDirectory] at hthere
  rw [rebuild, hthere]
  split
  · rfl
  · rw [← (ofSeeds_dirs seeds home).1]

theorem rebuild_home (s : Store) (seeds : List Seed) (home : String) :
    (s.rebuild seeds home).home = Path.normalize home := by
  rw [rebuild_eq]
  exact (ofSeeds_dirs seeds home).2

theorem hasDirectory_rebuild (s : Store) (seeds : List Seed) (home path : String) :
    (s.rebuild seeds home).hasDirectory path = (ofSeeds seeds home).hasDirectory path := by
  rw [rebuild_eq]
  exact hasDirectory_with_cwd ..

/-- A store that has been built anew has a working directory, whatever it had before. -/
theorem rebuild_directory (s : Store) (seeds : List Seed) (home : String) :
    (s.rebuild seeds home).hasDirectory (s.rebuild seeds home).cwd = true := by
  rw [hasDirectory_rebuild]
  unfold rebuild
  dsimp only
  split
  · next hthere => exact hthere
  · exact (settled_ofSeeds seeds home).cwd_directory

theorem rebuild_rebuild (s : Store) (seeds : List Seed) (home : String) :
    (s.rebuild seeds home).rebuild seeds home = s.rebuild seeds home := by
  have hthere := rebuild_directory s seeds home
  rw [hasDirectory_rebuild] at hthere
  have hbuilt := rebuild_eq s seeds home
  generalize s.rebuild seeds home = t at hthere hbuilt ⊢
  unfold rebuild
  dsimp only
  rw [if_pos hthere, hbuilt]

end PocketTerminal.Files.Store
