import PocketTerminal.Proofs.Files.Walks
import PocketTerminal.Proofs.Shell.Refusals
import PocketTerminal.Proofs.Text.Wildcards

/-! # Searches for names

A search for a glob prints the paths of what stands at or below its start under a name that the
glob matches, and of nothing else, in the order of a walk. With any library that keeps its
promises it is refused only where the glob makes a pattern that exceeds the library's limit. -/
namespace PocketTerminal.Shell

open Files (Change Entry Origin Store Visit)

/-- A reply with lines shows them, one without lines shows nothing. -/
theorem Reply.report_eq (lines : List String) :
    Reply.report lines = if lines = [] then .silent else .text (Text.unlines lines) := by
  cases lines <;> rfl

namespace Browse

variable {s : Store} {input root : String} {loose : Option Files.Slot} {lib : Text.PatternLibrary}
  {Exceeds : String → Prop}

/-- The paths of the entries at or below a place that pass a test, in the order of a walk. -/
structure Finds (s : Store) (input : String) (passes : Entry → Prop) (paths : List String) :
    Prop where
  mem_iff : ∀ path, path ∈ paths ↔ Path.isNormal path = true ∧
    s.trail input <+: Path.components path ∧ ∃ e, s.get? path = some e ∧ passes e
  walked : paths.Sublist ((s.walk input).map Visit.path)
  sorted : paths.Pairwise fun p q => Path.components p < Path.components q

/-- A walk of which only the entries that pass are kept. -/
theorem finds_filter (h : s.Forest loose) (input : String) {passes : Entry → Prop}
    {test : Entry → Bool} (htest : ∀ e, test e = true ↔ passes e) :
    Finds s input passes (((s.walk input).filter fun v => test v.entry).map Visit.path) where
  mem_iff path := by
    simp only [List.mem_map, List.mem_filter, htest]
    constructor
    · rintro ⟨v, ⟨hv, hpass⟩, hpath⟩
      obtain ⟨hnormal, hbelow, hentry⟩ := h.exists_mem_walk_iff.mp ⟨v, hv, hpath, rfl⟩
      exact ⟨hnormal, hbelow, v.entry, hentry, hpass⟩
    · rintro ⟨hnormal, hbelow, e, hentry, hpass⟩
      obtain ⟨v, hv, hpath, rfl⟩ := h.exists_mem_walk_iff.mpr ⟨hnormal, hbelow, hentry⟩
      exact ⟨v, ⟨hv, hpass⟩, hpath⟩
  walked := List.filter_sublist.map _
  sorted := by
    apply List.pairwise_map.mpr
    apply List.Pairwise.filter
    exact h.walk_pairwise

theorem find_run (lib : Text.PatternLibrary) (args : List String) (env : Environment) :
    (find lib).run args env = (runFind lib args env, env) := rfl

theorem searchArguments_name (glob : String) (hroot : Text.begins "-" root = false) :
    searchArguments lib "." none [root, "-name", glob] =
      (lib.compile? (Text.globPattern lib glob)).map fun pattern => (root, some pattern) := by
  have hname : root ≠ "-name" := by
    rintro rfl
    cases hroot
  rw [searchArguments, hroot]
  · cases hcompiled : lib.compile? (Text.globPattern lib glob) <;> simp [searchArguments, hcompiled]
  · exact hname

theorem runFind_of_exceeds (hlib : lib.Documented Exceeds) (env : Environment) {glob : String}
    (hroot : Text.begins "-" root = false) (hexceeds : Exceeds (Text.globPattern lib glob)) :
    runFind lib [root, "-name", glob] env = env.usageFault findUsage := by
  unfold runFind
  rw [searchArguments_name glob hroot, (Text.compile?_globPattern_eq_none_iff hlib glob).mpr hexceeds]
  rfl

theorem runFind_name (hlib : lib.Documented Exceeds) (env : Environment) (glob : String)
    (h : env.files.Forest loose) (hroot : Text.begins "-" root = false)
    (hthere : (env.files.get? root).isSome = true)
    (hsize : ¬ Exceeds (Text.globPattern lib glob)) :
    ∃ paths, Finds env.files root (fun e => Text.MatchesGlob glob e.name) paths ∧
      runFind lib [root, "-name", glob] env =
        .ok (if paths = [] then .silent else .text (Text.unlines paths)) := by
  obtain ⟨pattern, hpattern⟩ : ∃ pattern, lib.compile? (Text.globPattern lib glob) = some pattern := by
    apply Option.ne_none_iff_exists'.mp
    exact fun hnone => hsize ((Text.compile?_globPattern_eq_none_iff hlib glob).mp hnone)
  refine ⟨_, finds_filter h root fun e => Text.isMatch_globPattern_iff hlib hpattern, ?_⟩
  have hwalk : (env.files.walk root).isEmpty = false := by
    apply List.isEmpty_eq_false_iff.mpr
    intro hnil
    rw [h.walk_eq_nil_iff.mp hnil] at hthere
    cases hthere
  unfold runFind
  rw [searchArguments_name glob hroot, hpattern]
  simp only [Option.map_some, hwalk, Bool.false_eq_true, if_false, Option.all_some]
  apply congrArg
  apply Reply.report_eq

/-- For every library that keeps its promises, every file system and every start that is there: a
search for a glob within the library's limit prints, in the order of a walk, the paths of exactly
the entries at or below the start whose names the glob matches, or nothing where there are none.
Beyond the limit it is refused. -/
theorem run_find (lib : Text.PatternLibrary) (Exceeds : String → Prop)
    (hlib : lib.Documented Exceeds) (origin : Origin) (changes : List Change) (env : Environment)
    (root glob : String) (hfiles : env.files = Store.run origin changes)
    (hroot : Text.begins "-" root = false) (hthere : (env.files.get? root).isSome = true) :
    (¬ Exceeds (Text.globPattern lib glob) →
        ∃ paths, Finds env.files root (fun e => Text.MatchesGlob glob e.name) paths ∧
          (find lib).run [root, "-name", glob] env =
            (.ok (if paths = [] then .silent else .text (Text.unlines paths)), env)) ∧
      (Exceeds (Text.globPattern lib glob) →
        (find lib).run [root, "-name", glob] env =
          (env.usageFault "find [path] [-name <glob>]", env)) := by
  have h : env.files.Forest none := hfiles ▸ Store.forest_run origin changes
  constructor
  · intro hsize
    obtain ⟨paths, hfinds, hreply⟩ := runFind_name hlib env glob h hroot hthere hsize
    refine ⟨paths, hfinds, ?_⟩
    rw [find_run, hreply]
  · intro hexceeds
    rw [find_run, runFind_of_exceeds hlib env hroot hexceeds]
    rfl

def notes : List Change :=
  [.createDir "/a/b" true, .createFile "/a/b/a.md" "", .createFile "/a/a-md" "",
    .createFile "/a.md" ""]

/-- A dot is only a dot, two stars are one, and what is beside the start does not count. -/
theorem run_find_notes :
    Text.PatternLibrary.simple.Documented (fun text => Text.Pattern.limit < text.length) ∧
      (Registry.freshEnvironment (Store.run (.empty "/w") notes)).files =
        Store.run (.empty "/w") notes ∧
      Text.begins "-" "/a" = false ∧ ((Store.run (.empty "/w") notes).get? "/a").isSome = true ∧
      Text.globPattern .simple "**.?d" = "^.*.*\\..d$" ∧
      ∃ paths, Finds (Store.run (.empty "/w") notes) "/a" (fun e => Text.MatchesGlob "**.?d" e.name)
        paths ∧ paths ≠ [] ∧ Text.unlines paths = "/a/b/a.md" := by
  have hfiles := Registry.freshEnvironment_files (Store.run (.empty "/w") notes)
  have hthere : ((Store.run (.empty "/w") notes).get? "/a").isSome = true := by decide +kernel
  have hpattern : Text.globPattern .simple "**.?d" = "^.*.*\\..d$" := by decide +kernel
  have hrun : ((find .simple).run ["/a", "-name", "**.?d"]
      (Registry.freshEnvironment (Store.run (.empty "/w") notes))).1 = .ok (.text "/a/b/a.md") := by
    decide +kernel
  have hsize : ¬ Text.Pattern.limit < (Text.globPattern .simple "**.?d").length := by
    rw [hpattern]
    decide
  obtain ⟨paths, hfinds, hreply⟩ := (run_find .simple _ Text.documented_simple (.empty "/w") notes
    (Registry.freshEnvironment (Store.run (.empty "/w") notes)) "/a" "**.?d" hfiles (by decide)
    hthere).1 hsize
  refine ⟨Text.documented_simple, hfiles, by decide, hthere, hpattern, paths, hfinds, ?_⟩
  have hshown := hrun.symm.trans (congrArg Prod.fst hreply)
  by_cases hpaths : paths = []
  · simp [hpaths] at hshown
  · simp only [hpaths, if_false, Except.ok.injEq, Reply.text.injEq] at hshown
    exact ⟨hpaths, hshown.symm⟩

/-- The root's name matches every row of stars, and the search for a long one is refused. -/
theorem find_refuses_stars :
    Text.PatternLibrary.simple.Documented (fun text => Text.Pattern.limit < text.length) ∧
      Text.begins "-" "/" = false ∧ ((Store.create "/w").get? "/").map Entry.name = some "/" ∧
      Text.MatchesGlob (Text.stars 262144) "/" ∧
      (find .simple).run ["/", "-name", Text.stars 262144]
          (Registry.freshEnvironment (Store.create "/w")) =
        (.error (.refused "usage: find [path] [-name <glob>]"),
          Registry.freshEnvironment (Store.create "/w")) := by
  have hexceeds : Text.Pattern.limit < (Text.globPattern .simple (Text.stars 262144)).length := by
    unfold Text.globPattern
    rw [String.length_append, String.length_append, Text.length_wildcardBody_stars]
    decide
  have hmessage : (Registry.freshEnvironment (Store.create "/w")).usageFault findUsage =
      (.error (.refused "usage: find [path] [-name <glob>]") : Except Fault Reply) := rfl
  refine ⟨Text.documented_simple, by decide, by decide +kernel,
    Text.matchesGlob_stars (by decide) (by decide), ?_⟩
  rw [find_run, runFind_of_exceeds Text.documented_simple _ (by decide) hexceeds, hmessage]

end Browse
end PocketTerminal.Shell
