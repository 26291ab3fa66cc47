import PocketTerminal.Files.Path
import PocketTerminal.Proofs.Text.Pieces

/-! # The components of a path in normal form

A path in normal form is spelled by exactly one list of proper components. Parent, last
component and the names along the path are all read off that list. -/
namespace PocketTerminal.Path

def ProperChars (component : List Char) : Prop :=
  component ≠ [] ∧ component ≠ ['.'] ∧ component ≠ ['.', '.'] ∧ '/' ∉ component

def ProperName (name : String) : Prop := name ≠ "" ∧ name ≠ "." ∧ name ≠ ".." ∧ '/' ∉ name.toList

/-- The path is written with these components and no others. -/
def Spells (path : String) (components : List (List Char)) : Prop :=
  path.toList = ofComponents components ∧ ∀ c ∈ components, ProperChars c

theorem properName_ofList {component : List Char} (h : ProperChars component) :
    ProperName (String.ofList component) := by
  obtain ⟨hempty, hdot, hdots, hslash⟩ := h
  refine ⟨fun he => hempty ?_, fun he => hdot ?_, fun he => hdots ?_, ?_⟩
  · simpa using congrArg String.toList he
  · simpa using congrArg String.toList he
  · simpa using congrArg String.toList he
  · simpa using hslash

theorem properComponent_iff {component : List Char} :
    properComponent component = true ↔
      component ≠ [] ∧ component ≠ ['.'] ∧ component ≠ ['.', '.'] := by
  simp [properComponent, and_assoc]

/-- Splitting undoes joining, but for the empty part before the first slash. -/
theorem splitOn_flatMap_slash {components : List (List Char)}
    (h : ∀ c ∈ components, '/' ∉ c) :
    (components.flatMap ('/' :: ·)).splitOn '/' = [] :: components := by
  induction components with
  | nil => simp
  | cons c rest ih =>
    have hrest := ih fun d hd => h d (List.mem_cons_of_mem _ hd)
    have hc : '/' ∉ c := h c List.mem_cons_self
    rw [List.flatMap_cons, List.cons_append, List.splitOn_cons_eq_if_modifyHead]
    simp only [beq_self_eq_true, if_true, List.cons.injEq, true_and]
    cases rest with
    | nil => simpa using List.splitOn_eq_singleton hc
    | cons d rest =>
      rw [List.flatMap_cons, List.cons_append, List.splitOn_cons_eq_if_modifyHead] at hrest
      simp only [beq_self_eq_true, if_true, List.cons.injEq, true_and] at hrest
      rw [List.flatMap_cons, List.cons_append,
        List.splitOn_append_cons_self_of_not_mem hc, hrest]

theorem Spells.noSlash {path : String} {components : List (List Char)}
    (h : Spells path components) : ∀ c ∈ components, '/' ∉ c := fun c hc => (h.2 c hc).2.2.2

theorem Spells.eq_root {path : String} (h : Spells path []) : path = "/" :=
  String.toList_inj.mp h.1

theorem spells_root : Spells "/" [] := ⟨rfl, by simp⟩

theorem Spells.toList_eq {path : String} {components : List (List Char)}
    (h : Spells path components) (hne : components ≠ []) :
    path.toList = components.flatMap ('/' :: ·) := by
  rw [h.1, ofComponents, if_neg (by simpa using hne)]

theorem Spells.splitOn {path : String} {components : List (List Char)}
    (h : Spells path components) (hne : components ≠ []) :
    path.toList.splitOn '/' = [] :: components := by
  rw [h.toList_eq hne]
  exact splitOn_flatMap_slash h.noSlash

theorem Spells.components {path : String} {cs : List (List Char)} (h : Spells path cs) :
    Path.components path = cs.map String.ofList := by
  by_cases hne : cs = []
  · subst hne
    rw [h.eq_root]
    rfl
  · rw [Path.components, h.splitOn hne]
    congr 1
    rw [List.filter_cons_of_neg (by simp)]
    exact List.filter_eq_self.mpr fun c hc => by simpa using (h.2 c hc).1

theorem Spells.isNormal {path : String} {cs : List (List Char)} (h : Spells path cs) :
    isNormal path = true := by
  cases cs with
  | nil =>
    rw [h.eq_root]
    rfl
  | cons c rest =>
    have hsplit := h.splitOn (List.cons_ne_nil c rest)
    rw [h.toList_eq (List.cons_ne_nil c rest), List.flatMap_cons, List.cons_append,
      List.splitOn_cons_eq_if_modifyHead] at hsplit
    simp only [beq_self_eq_true, if_true, List.cons.injEq, true_and] at hsplit
    rw [Path.isNormal, h.toList_eq (List.cons_ne_nil c rest), List.flatMap_cons, List.cons_append]
    simp only [Bool.or_eq_true]
    right
    rw [hsplit]
    refine List.all_eq_true.mpr fun d hd => properComponent_iff.mpr ?_
    exact ⟨(h.2 d hd).1, (h.2 d hd).2.1, (h.2 d hd).2.2.1⟩

theorem flatMap_slash_splitOn (path : List Char) :
    (path.splitOn '/').flatMap ('/' :: ·) = '/' :: path := by
  induction path with
  | nil => simp
  | cons c path ih =>
    obtain ⟨first, rest, hsplit⟩ := List.exists_cons_of_ne_nil (List.splitOn_ne_nil '/' path)
    rw [List.splitOn_cons_eq_if_modifyHead]
    split
    · next hc =>
      rw [List.flatMap_cons, ih]
      simp_all
    · rw [hsplit, List.flatMap_cons, List.cons_append] at ih
      rw [hsplit, List.modifyHead_cons, List.flatMap_cons]
      simp_all

theorem spells_of_isNormal {path : String} (h : isNormal path = true) : ∃ cs, Spells path cs := by
  unfold isNormal at h
  split at h
  · next rest hpath =>
    rcases Bool.or_eq_true_iff.mp h with hrest | hall
    · have he : rest = [] := by simpa using hrest
      exact ⟨[], by rw [hpath, he]; rfl, by simp⟩
    · refine ⟨rest.splitOn '/', ?_, fun c hc => ?_⟩
      · rw [hpath, ofComponents, if_neg (by simp), flatMap_slash_splitOn]
      · have hc' := properComponent_iff.mp (List.all_eq_true.mp hall c hc)
        exact ⟨hc'.1, hc'.2.1, hc'.2.2, Text.notMem_of_mem_splitOn hc⟩
  · exact absurd h (by simp)

/-- A path in normal form is known by its components. -/
theorem eq_of_components {a b : String} (ha : isNormal a = true) (hb : isNormal b = true)
    (h : components a = components b) : a = b := by
  obtain ⟨cs, hcs⟩ := spells_of_isNormal ha
  obtain ⟨ds, hds⟩ := spells_of_isNormal hb
  rw [hcs.components, hds.components] at h
  have he : cs = ds := List.map_injective_iff.mpr (fun _ _ => String.ofList_injective) h
  rw [← String.toList_inj, hcs.1, hds.1, he]

theorem properChars_enter {above : List (List Char)} {component : List Char}
    (ha : ∀ c ∈ above, ProperChars c) (hc : '/' ∉ component) :
    ∀ c ∈ enter above component, ProperChars c := by
  unfold enter
  split
  · exact fun c hc => ha c (List.mem_of_mem_drop hc)
  · split
    · next hproper =>
      intro c hmem
      rcases List.mem_cons.mp hmem with rfl | hmem
      · have hp := properComponent_iff.mp hproper
        exact ⟨hp.1, hp.2.1, hp.2.2, hc⟩
      · exact ha c hmem
    · exact ha

theorem properChars_foldl_enter {components above : List (List Char)}
    (ha : ∀ c ∈ above, ProperChars c) (hc : ∀ c ∈ components, '/' ∉ c) :
    ∀ c ∈ components.foldl enter above, ProperChars c := by
  induction components generalizing above with
  | nil => exact ha
  | cons d rest ih =>
    exact ih (properChars_enter ha (hc d List.mem_cons_self))
      fun c h => hc c (List.mem_cons_of_mem _ h)

theorem spells_normalize (path : String) : ∃ cs, Spells (normalize path) cs := by
  unfold normalize
  split
  · next h => exact spells_of_isNormal h
  · refine ⟨reduce path.toList, by simp, fun c hc => ?_⟩
    exact properChars_foldl_enter (by simp) (fun d hd => Text.notMem_of_mem_splitOn hd) c
      (List.mem_reverse.mp hc)

theorem isNormal_normalize (path : String) : isNormal (normalize path) = true :=
  (spells_normalize path).elim fun _ h => h.isNormal

theorem isNormal_resolve (cwd home input : String) : isNormal (resolve cwd home input) = true :=
  isNormal_normalize _

theorem normalize_of_isNormal {path : String} (h : isNormal path = true) : normalize path = path :=
  if_pos h

/-- What is in normal form already means itself, whatever the working directory. -/
theorem resolve_of_isNormal {path : String} (cwd home : String) (h : isNormal path = true) :
    resolve cwd home path = path := by
  have hslash : ∃ rest, path.toList = '/' :: rest := by
    unfold isNormal at h
    split at h
    · next rest hpath => exact ⟨rest, hpath⟩
    · exact absurd h (by simp)
  obtain ⟨rest, hpath⟩ := hslash
  rw [resolve, hpath]
  exact normalize_of_isNormal h

theorem properName_of_mem_components {path name : String} (h : isNormal path = true)
    (hn : name ∈ components path) : ProperName name := by
  obtain ⟨cs, hs⟩ := spells_of_isNormal h
  rw [hs.components] at hn
  obtain ⟨c, hc, rfl⟩ := List.mem_map.mp hn
  exact properName_ofList (hs.2 c hc)

theorem Spells.reverse_toList {path : String} {cs : List (List Char)} {c : List Char}
    (h : Spells path (cs ++ [c])) :
    path.toList.reverse = c.reverse ++ '/' :: (cs.flatMap ('/' :: ·)).reverse := by
  rw [h.toList_eq (by simp)]
  simp

theorem Spells.fileName {path : String} {cs : List (List Char)} {c : List Char}
    (h : Spells path (cs ++ [c])) : fileName path = String.ofList c := by
  have hc : '/' ∉ c := h.noSlash c (by simp)
  have htake : ∀ x ∈ c.reverse, (x != '/') = true := by
    intro x hx
    simp only [bne_iff_ne, ne_eq]
    rintro rfl
    exact hc (List.mem_reverse.mp hx)
  rw [Path.fileName, baseChars, h.reverse_toList, List.takeWhile_append_of_pos htake]
  simp

theorem Spells.parent {path : String} {cs : List (List Char)} {c : List Char}
    (h : Spells path (cs ++ [c])) : Spells (parent path) cs := by
  have hc : '/' ∉ c := h.noSlash c (by simp)
  have hdrop : ∀ x ∈ c.reverse, (x != '/') = true := by
    intro x hx
    simp only [bne_iff_ne, ne_eq]
    rintro rfl
    exact hc (List.mem_reverse.mp hx)
  have hproper : ∀ d ∈ cs, ProperChars d := fun d hd => h.2 d (by simp [hd])
  refine ⟨?_, hproper⟩
  rw [Path.parent, h.reverse_toList, List.dropWhile_append_of_pos hdrop,
    List.dropWhile_cons_of_neg (by simp)]
  by_cases hne : cs = []
  · subst hne
    rfl
  · have hflat : (cs.flatMap ('/' :: ·)).reverse ≠ [] := by
      obtain ⟨d, rest, rfl⟩ := List.exists_cons_of_ne_nil hne
      simp
    obtain ⟨x, rest, hrest⟩ := List.exists_cons_of_ne_nil hflat
    rw [hrest]
    simp only [String.toList_ofList]
    rw [← hrest, List.reverse_reverse, ofComponents, if_neg (by simpa using hne)]

theorem exists_spells_append {path : String} (h : isNormal path = true) (hne : path ≠ "/") :
    ∃ cs c, Spells path (cs ++ [c]) := by
  obtain ⟨cs, hs⟩ := spells_of_isNormal h
  rcases List.eq_nil_or_concat cs with rfl | ⟨rest, c, rfl⟩
  · exact absurd hs.eq_root hne
  · exact ⟨rest, c, by simpa using hs⟩

theorem isNormal_parent {path : String} (h : isNormal path = true) :
    isNormal (parent path) = true := by
  by_cases hne : path = "/"
  · subst hne
    rfl
  · obtain ⟨cs, c, hs⟩ := exists_spells_append h hne
    exact hs.parent.isNormal

/-- Below the root a path leads through its parent to its last component. -/
theorem components_eq_parent_append {path : String} (h : isNormal path = true) (hne : path ≠ "/") :
    components path = components (parent path) ++ [fileName path] := by
  obtain ⟨cs, c, hs⟩ := exists_spells_append h hne
  rw [hs.components, hs.parent.components, hs.fileName]
  simp

theorem properName_fileName {path : String} (h : isNormal path = true) (hne : path ≠ "/") :
    ProperName (fileName path) := by
  obtain ⟨cs, c, hs⟩ := exists_spells_append h hne
  rw [hs.fileName]
  exact properName_ofList (hs.2 c (by simp))

theorem ProperName.properChars {name : String} (h : ProperName name) : ProperChars name.toList := by
  obtain ⟨hempty, hdot, hdots, hslash⟩ := h
  refine ⟨fun he => hempty ?_, fun he => hdot ?_, fun he => hdots ?_, hslash⟩
  all_goals rw [← String.toList_inj, he]; rfl

theorem Spells.join {dir name : String} {cs : List (List Char)} (h : Spells dir cs)
    (hname : ProperName name) : Spells (join dir name) (cs ++ [name.toList]) := by
  have hproper : ∀ c ∈ cs ++ [name.toList], ProperChars c := by
    intro c hc
    rcases List.mem_append.mp hc with hc | hc
    · exact h.2 c hc
    · exact List.mem_singleton.mp hc ▸ hname.properChars
  refine ⟨?_, hproper⟩
  rw [ofComponents, if_neg (by simp), Path.join]
  by_cases hne : cs = []
  · subst hne
    rw [if_pos h.eq_root]
    simp
  · have hdir : dir ≠ "/" := by
      rintro rfl
      have hcs := h.components
      rw [spells_root.components, List.map_nil] at hcs
      exact hne (List.map_eq_nil_iff.mp hcs.symm)
    rw [if_neg hdir, String.toList_append, String.toList_append, h.toList_eq hne]
    simp

theorem isNormal_join {dir name : String} (h : isNormal dir = true) (hname : ProperName name) :
    isNormal (join dir name) = true := by
  obtain ⟨cs, hs⟩ := spells_of_isNormal h
  exact (hs.join hname).isNormal

theorem components_join {dir name : String} (h : isNormal dir = true) (hname : ProperName name) :
    components (join dir name) = components dir ++ [name] := by
  obtain ⟨cs, hs⟩ := spells_of_isNormal h
  rw [(hs.join hname).components, hs.components]
  simp

theorem Spells.foldl_join {dir : String} {cs : List (List Char)} {names : List String}
    (h : Spells dir cs) (hnames : ∀ name ∈ names, ProperName name) :
    Spells (names.foldl Path.join dir) (cs ++ names.map String.toList) := by
  induction names generalizing dir cs with
  | nil => rwa [List.map_nil, List.append_nil]
  | cons name rest ih =>
    rw [List.foldl_cons, List.map_cons, List.append_cons]
    exact ih (h.join (hnames name List.mem_cons_self)) fun n hn =>
      hnames n (List.mem_cons_of_mem _ hn)

/-- Names joined one after another to the root are the names along a path. -/
theorem isNormal_foldl_join {names : List String} (h : ∀ name ∈ names, ProperName name) :
    isNormal (names.foldl join "/") = true :=
  (spells_root.foldl_join h).isNormal

theorem components_foldl_join {names : List String} (h : ∀ name ∈ names, ProperName name) :
    components (names.foldl join "/") = names := by
  rw [(spells_root.foldl_join h).components, List.nil_append, List.map_map]
  exact (List.map_congr_left fun name _ => String.ofList_toList).trans (List.map_id names)

end PocketTerminal.Path
