import PocketTerminal.Proofs.Files.Growing
import PocketTerminal.Proofs.Files.Walks

/-! # Making directories

A directory is made where nothing is, in a directory that is there. Together with all that is
missing on the way to it, it is made wherever no file is in the way. In both cases nothing else
changes. Only the root stands apart: it can always be asked for, though it is there. -/
namespace PocketTerminal.Files

/-- The paths that a path begins with, each once. -/
theorem nodup_inits (path : List String) : path.inits.Nodup := by
  induction path with
  | nil => exact List.nodup_singleton []
  | cons name rest ih =>
    rw [List.inits_cons]
    refine List.nodup_cons.mpr ⟨by simp, ih.map ?_⟩
    intro p q he
    exact List.tail_eq_of_cons_eq he

namespace Store

variable {s t : Store} {dir : Slot} {input : String} {names p q path : List String}

/-- The paths on the way along a path, itself included, at which nothing stands. -/
def missing (s : Store) (path : List String) : List (List String) :=
  path.inits.filter fun p => (s.sight? p).isNone

/-- New directories at some paths, with nothing in them but each other, and no other change. -/
structure Furnished (s t : Store) (made : List (List String)) : Prop where
  was_free : ∀ p ∈ made, s.sight? p = none
  fresh : ∀ p ∈ made, t.sight? p = some (.directory none)
  bare : ∀ p ∈ made, ∀ rest, p ++ rest ∉ made → t.sight? (p ++ rest) = none
  kept : ∀ p, p ∉ made → t.sight? p = s.sight? p
  count_eq : t.count = s.count + made.length
  cwd_eq : t.cwd = s.cwd
  home_eq : t.home = s.home

theorem mem_missing_iff : p ∈ s.missing path ↔ p <+: path ∧ s.sight? p = none := by
  rw [missing, List.mem_filter, List.mem_inits, Option.isNone_iff_eq_none]

theorem nodup_missing : (s.missing path).Nodup := (nodup_inits path).filter _

namespace Forest

variable (h : s.Forest none)
include h

theorem furnished_of_pave (ht : t.Forest none) (hsight : t.sight? = View.pave s.sight? path)
    (hcwd : t.cwd = s.cwd) (hhome : t.home = s.home) : s.Furnished t (s.missing path) := by
  have hfresh : ∀ p ∈ s.missing path, t.sight? p = some (.directory none) := by
    intro p hp
    obtain ⟨hpre, hnone⟩ := mem_missing_iff.mp hp
    rw [hsight, View.pave, if_pos hpre, hnone]
    rfl
  have hkept : ∀ p, p ∉ s.missing path → t.sight? p = s.sight? p := by
    intro p hp
    rw [hsight]
    by_cases hpre : p <+: path
    · obtain ⟨sight, hthere⟩ :=
        Option.ne_none_iff_exists'.mp fun hnone => hp (mem_missing_iff.mpr ⟨hpre, hnone⟩)
      rw [View.pave_of_some hthere, hthere]
    · exact View.pave_of_not hpre
  refine ⟨fun p hp => (mem_missing_iff.mp hp).2, hfresh, ?_, hkept, ?_, hcwd, hhome⟩
  · intro p hp rest hrest
    rw [hkept _ hrest]
    exact sight?_eq_none_below h (mem_missing_iff.mp hp).2 (List.prefix_append p rest)
  · refine h.count_eq_add ht nodup_missing (fun p hp => (mem_missing_iff.mp hp).2) ?_
    intro p
    by_cases hp : p ∈ s.missing path
    · rw [hfresh p hp]
      exact iff_of_true rfl (.inr hp)
    · rw [hkept p hp]
      exact (or_iff_left hp).symm

theorem missing_eq_singleton (hfree : s.sight? path = none)
    (hparent : s.leadsToDirectory path.dropLast = true) : s.missing path = [path] := by
  rcases List.eq_nil_or_concat path with rfl | ⟨above, name, rfl⟩
  · rw [missing, List.inits, List.filter_cons_of_pos (by rw [hfree]; rfl)]
    rfl
  · rw [List.concat_eq_append] at hfree hparent ⊢
    rw [List.dropLast_concat] at hparent
    have habove : above.inits.filter (fun p => (s.sight? p).isNone) = [] := by
      refine List.filter_eq_nil_iff.mpr ?_
      intro p hp hnone
      have hway := leadsToDirectory_on_way h hparent ((List.mem_inits p above).mp hp)
      rw [leadsToDirectory, Option.isNone_iff_eq_none.mp hnone] at hway
      cases hway
    rw [missing, List.inits_append, List.filter_append, habove]
    simp [hfree]

/-- A single directory can be made where nothing is, in a directory that is there. -/
theorem createAlong_single_iff (hq : s.descend root q = some dir)
    (hdir : s.isDirectory dir = true) (hne : names ≠ []) :
    (createAlong false s dir names).1 = true ↔
      s.sight? (q ++ names) = none ∧ s.leadsToDirectory (q ++ names.dropLast) = true := by
  induction names generalizing dir q with
  | nil => exact absurd rfl hne
  | cons name rest ih =>
    have hnext : s.descend root (q ++ [name]) = s.find? dir name := by
      rw [descend_append, hq, Option.bind_some]
    cases rest with
    | nil =>
      have hparent : s.leadsToDirectory q = true := by rw [leadsToDirectory_of_descend hq, hdir]
      rw [h.sight?_eq_none_iff, hnext, createAlong]
      cases s.find? dir name <;> simp [createAlong, hparent]
    | cons next rest =>
      have hway : q ++ name :: next :: rest = (q ++ [name]) ++ next :: rest := by simp
      have hup : q ++ (name :: next :: rest).dropLast = (q ++ [name]) ++ (next :: rest).dropLast := by
        simp
      -- Whatever more is on the way, the next name has to lead to a directory.
      have hthrough : s.leadsToDirectory ((q ++ [name]) ++ (next :: rest).dropLast) = true →
          s.leadsToDirectory (q ++ [name]) = true := by
        intro hparent
        exact leadsToDirectory_on_way h hparent (List.prefix_append _ _)
      rw [createAlong, hway, hup]
      cases hf : s.find? dir name with
      | none =>
        rw [hf] at hnext
        refine iff_of_false (by simp) ?_
        rintro ⟨-, hparent⟩
        obtain ⟨i, hi, -⟩ := leadsToDirectory_iff.mp (hthrough hparent)
        rw [hnext] at hi
        cases hi
      | some slot =>
        rw [hf] at hnext
        cases hd : s.isDirectory slot with
        | true => simpa [hd] using ih hnext hd (List.cons_ne_nil next rest)
        | false =>
          refine iff_of_false (by simp [hd]) ?_
          rintro ⟨-, hparent⟩
          have hslot := hthrough hparent
          rw [leadsToDirectory_of_descend hnext, hd] at hslot
          cases hslot

end Forest

/-- A directory asked for by itself is made where nothing is, in a directory that is there. -/
structure MakesOne (s : Store) (input : String) : Prop where
  done_iff : (s.createDir input false).1 = true ↔ s.sight? (s.trail input) = none ∧
    s.leadsToDirectory (s.trail input).dropLast = true
  made : (s.createDir input false).1 = true →
    s.Furnished (s.createDir input false).2 [s.trail input]

/-- A directory asked for with all on the way to it is made where no file is on the way. -/
structure MakesWay (s : Store) (input : String) : Prop where
  done_iff : (s.createDir input true).1 = true ↔ ∀ p, p <+: s.trail input →
    ∀ content pageSection, s.sight? p ≠ some (.file content pageSection)
  made : (s.createDir input true).1 = true →
    s.Furnished (s.createDir input true).2 (s.missing (s.trail input))

namespace Forest

variable (h : s.Forest none)
include h

theorem furnished_createDir {recursive : Bool} (hdone : (s.createDir input recursive).1 = true) :
    s.Furnished (s.createDir input recursive).2 (s.missing (s.trail input)) := by
  have hsight := h.sight?_createDir hdone
  obtain ⟨done, t, hrun, ht, -, hcwd, hhome, -⟩ := createDir_spec h input recursive
  rw [hrun] at hsight ⊢
  exact h.furnished_of_pave ht hsight hcwd hhome

theorem makesOne (hne : s.trail input ≠ []) : s.MakesOne input := by
  have hiff := h.createAlong_single_iff (q := []) rfl h.root_directory hne
  rw [List.nil_append, List.nil_append, ← createDir_eq] at hiff
  refine ⟨hiff, ?_⟩
  intro hdone
  obtain ⟨hfree, hparent⟩ := hiff.mp hdone
  rw [← h.missing_eq_singleton hfree hparent]
  exact h.furnished_createDir hdone

theorem makesWay : s.MakesWay input := by
  refine ⟨?_, h.furnished_createDir⟩
  rw [h.createDir_done_iff, View.isOpen_iff]
  constructor
  · intro hopen p hp content pageSection hfile
    cases hopen p hp _ hfile
  · intro hno p hp sight hsight
    cases sight with
    | file content pageSection => exact absurd hsight (hno p hp content pageSection)
    | directory pageSection => rfl

end Forest

/-- For every store that comes about, and whatever is typed: below the root, a directory is made
exactly where nothing is and its parent is a directory. With all that is missing on the way it is
made exactly where no file is in the way. Nothing changes but that what was missing is now a
directory with nothing in it. The root is answered as made, though it is there, and stays. -/
theorem run_createDir (origin : Origin) (changes : List Change) (input : String) :
    ((run origin changes).trail input ≠ [] → (run origin changes).MakesOne input) ∧
      ((run origin changes).trail input = [] →
        (run origin changes).createDir input false = (true, run origin changes)) ∧
      (run origin changes).MakesWay input := by
  have h := ((settled_origin origin).foldl_perform changes).forest
  refine ⟨h.makesOne, ?_, h.makesWay⟩
  intro hroot
  rw [createDir_eq, hroot]
  rfl

/-- A directory beside the home directory, and two more below it with a single request. -/
theorem run_createDir_beside :
    ∃ s, run (.empty "/home") [.createDir "../a" false] = s ∧ s.trail "~/../a/b/c" = ["a", "b", "c"] ∧
      s.MakesOne "~/../a/b/c" ∧ s.MakesWay "~/../a/b/c" ∧
      s.missing ["a", "b", "c"] = [["a", "b"], ["a", "b", "c"]] ∧
      (s.createDir "~/../a/b/c" false).1 = false ∧ (s.createDir "~/../a/b/c" true).1 = true := by
  obtain ⟨hone, -, hway⟩ := run_createDir (.empty "/home") [.createDir "../a" false] "~/../a/b/c"
  have hpath : (run (.empty "/home") [.createDir "../a" false]).trail "~/../a/b/c" =
      ["a", "b", "c"] := by decide +kernel
  exact ⟨_, rfl, hpath, hone (by rw [hpath]; simp), hway, by decide +kernel, by decide +kernel,
    by decide +kernel⟩

/-- The root is there, but a request for it that is not to find anything is granted. -/
theorem createDir_root_granted :
    ¬ (((run (.empty "/home") []).createDir "/" false).1 = true ↔
      (run (.empty "/home") []).sight? ((run (.empty "/home") []).trail "/") = none ∧
        (run (.empty "/home") []).leadsToDirectory
          ((run (.empty "/home") []).trail "/").dropLast = true) := by
  decide +kernel

end Store
end PocketTerminal.Files
