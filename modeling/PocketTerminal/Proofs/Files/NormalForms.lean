import PocketTerminal.Proofs.Files.PathComponents

/-! # The normal form of a path

Normalizing reads a path piece by piece, also where it finds the path in normal form and
leaves it alone. What it gives is the one path in normal form that leads where the given path
leads from the root. -/
namespace PocketTerminal.Path

def settle : List String → List String → List String
  | names, [] => names
  | names, piece :: rest =>
    if piece = "" ∨ piece = "." then settle names rest
    else if piece = ".." then settle names.dropLast rest
    else settle (names ++ [piece]) rest

def retrace (path : String) : String :=
  "/" ++ String.intercalate "/" (settle [] (Text.pieces '/' path))

/-- From the root, through names that entries can have, with no slash at the end but the
root's own. -/
structure NormalForm (path : String) : Prop where
  rooted : ∃ rest, path.toList = '/' :: rest
  proper : path ≠ "/" → ∀ piece ∈ (Text.pieces '/' path).tail, ProperName piece
  closed : path.toList.getLast? = some '/' → path = "/"

variable {path : String} {cs : List (List Char)}

theorem Spells.unique {a b : String} (ha : Spells a cs) (hb : Spells b cs) : a = b :=
  String.toList_inj.mp (ha.1.trans hb.1.symm)

theorem foldl_enter_proper (hcs : ∀ c ∈ cs, ProperChars c) (above : List (List Char)) :
    cs.foldl enter above = cs.reverse ++ above := by
  induction cs generalizing above with
  | nil => rfl
  | cons c cs ih =>
    obtain ⟨⟨hempty, hdot, hdots, -⟩, hcs⟩ := List.forall_mem_cons.mp hcs
    have henter : enter above c = c :: above := by
      rw [enter, if_neg hdots, if_pos (properComponent_iff.mpr ⟨hempty, hdot, hdots⟩)]
    rw [List.foldl_cons, henter, ih hcs, List.reverse_cons, List.append_assoc]
    rfl

theorem Spells.reduce (h : Spells path cs) : reduce path.toList = cs := by
  by_cases hne : cs = []
  · subst hne
    rw [h.eq_root]
    rfl
  · have hempty : enter [] [] = [] := rfl
    rw [Path.reduce, h.splitOn hne, List.foldl_cons, hempty, foldl_enter_proper h.2,
      List.append_nil, List.reverse_reverse]

theorem reduce_append (a b : List Char) :
    reduce (a ++ '/' :: b) = ((b.splitOn '/').foldl enter (reduce a).reverse).reverse := by
  have hsplit : (a ++ '/' :: b).splitOn '/' = a.splitOn '/' ++ b.splitOn '/' :=
    List.splitOnP_append_cons a b (beq_self_eq_true '/')
  rw [reduce, hsplit, List.foldl_append, reduce, List.reverse_reverse]

/-- The path in normal form is left alone, and it is what the loop would make of it. -/
theorem toList_normalize (path : String) :
    (normalize path).toList = ofComponents (reduce path.toList) := by
  unfold normalize
  split
  · next h =>
    obtain ⟨cs, hcs⟩ := spells_of_isNormal h
    rw [hcs.reduce]
    exact hcs.1
  · exact String.toList_ofList

theorem ofList_eq_iff {cs : List Char} {s : String} : String.ofList cs = s ↔ cs = s.toList := by
  rw [← String.toList_inj, String.toList_ofList]

theorem settle_map_ofList (above pieces : List (List Char)) :
    settle (above.reverse.map String.ofList) (pieces.map String.ofList) =
      (pieces.foldl enter above).reverse.map String.ofList := by
  induction pieces generalizing above with
  | nil => rfl
  | cons piece pieces ih =>
    rw [List.map_cons, List.foldl_cons, settle, enter]
    simp only [ofList_eq_iff]
    by_cases hdots : piece = ['.', '.']
    · subst hdots
      have hdotted : ['.', '.'] = "..".toList := rfl
      have hdrop : (above.drop 1).reverse.map String.ofList =
          (above.reverse.map String.ofList).dropLast := by
        cases above <;> simp
      rw [if_neg (by decide), if_pos hdotted, if_pos rfl, ← ih, hdrop]
    rw [if_neg hdots]
    by_cases hskip : piece = "".toList ∨ piece = ".".toList
    · have himproper : ¬properComponent piece := by
        rcases hskip with rfl | rfl <;> decide
      rw [if_pos hskip, if_neg himproper, ih]
    · have hproper : properComponent piece := by
        obtain ⟨hempty, hdot⟩ := not_or.mp hskip
        exact properComponent_iff.mpr ⟨hempty, hdot, hdots⟩
      have hdots' : ¬piece = "..".toList := hdots
      rw [if_neg hskip, if_neg hdots', if_pos hproper, ← ih, List.reverse_cons, List.map_append]
      rfl

theorem toList_slash_intercalate (cs : List (List Char)) :
    ("/" ++ String.intercalate "/" (cs.map String.ofList)).toList = ofComponents cs := by
  have hmap : (cs.map String.ofList).map String.toList = cs := by
    simp
  rw [String.toList_append, String.toList_intercalate, hmap]
  cases cs with
  | nil => rfl
  | cons c cs => exact congrArg ('/' :: ·) (Text.intercalate_cons '/' c cs)

theorem normalize_eq_retrace (path : String) : normalize path = retrace path := by
  refine String.toList_inj.mp ?_
  rw [toList_normalize, retrace, Text.pieces, ← List.map_nil, ← List.reverse_nil, settle_map_ofList,
    toList_slash_intercalate]
  rfl

theorem Spells.normalForm (h : Spells path cs) : NormalForm path := by
  by_cases hne : cs = []
  · subst hne
    have hroot := h.eq_root
    subst hroot
    exact ⟨⟨[], rfl⟩, fun h => absurd rfl h, fun _ => rfl⟩
  have hpieces : (Text.pieces '/' path).tail = cs.map String.ofList := by
    rw [Text.pieces, h.splitOn hne]
    rfl
  refine ⟨?_, fun _ piece hpiece => ?_, fun hlast => ?_⟩
  · obtain ⟨c, cs, rfl⟩ := List.exists_cons_of_ne_nil hne
    exact ⟨_, h.toList_eq hne⟩
  · rw [hpieces] at hpiece
    obtain ⟨c, hc, rfl⟩ := List.mem_map.mp hpiece
    exact properName_ofList (h.2 c hc)
  · obtain ⟨above, c, rfl⟩ := (List.eq_nil_or_concat cs).resolve_left hne
    rw [List.concat_eq_append] at h hne
    obtain ⟨hempty, -, -, hslash⟩ := h.2 c (List.mem_concat_self)
    obtain ⟨last, hc⟩ := Option.isSome_iff_exists.mp (List.getLast?_isSome.mpr hempty)
    rw [h.toList_eq hne, List.flatMap_append, List.flatMap_singleton, List.getLast?_append,
      List.getLast?_cons, hc] at hlast
    cases hlast
    exact absurd (List.mem_of_getLast? hc) hslash

theorem isNormal_of_normalForm (h : NormalForm path) : isNormal path = true := by
  obtain ⟨rest, hrest⟩ := h.rooted
  by_cases hroot : path = "/"
  · subst hroot
    rfl
  have hsplit : path.toList.splitOn '/' = [] :: rest.splitOn '/' := by
    rw [hrest]
    exact List.splitOn_append_cons_self_of_not_mem List.not_mem_nil rest
  unfold isNormal
  rw [hrest]
  refine Bool.or_eq_true_iff.mpr (.inr (List.all_eq_true.mpr fun c hc => ?_))
  have hproper := h.proper hroot (String.ofList c) (by
    rw [Text.pieces, hsplit]
    exact List.mem_map_of_mem hc)
  obtain ⟨hempty, hdot, hdots, -⟩ := hproper.properChars
  rw [String.toList_ofList] at hempty hdot hdots
  exact properComponent_iff.mpr ⟨hempty, hdot, hdots⟩

theorem isNormal_iff : isNormal path = true ↔ NormalForm path :=
  ⟨fun h => (spells_of_isNormal h).elim fun _ hcs => hcs.normalForm, isNormal_of_normalForm⟩

theorem normalize_eq_self_iff : normalize path = path ↔ isNormal path = true :=
  ⟨fun h => h ▸ isNormal_normalize path, normalize_of_isNormal⟩

theorem join_parent_fileName (h : isNormal path = true) (hne : path ≠ "/") :
    join (parent path) (fileName path) = path := by
  obtain ⟨cs, c, hs⟩ := exists_spells_append h hne
  have hjoin := hs.parent.join (properName_fileName h hne)
  rw [hs.fileName, String.toList_ofList, ← hs.fileName] at hjoin
  exact hjoin.unique hs

theorem parent_eq_normalize (h : isNormal path = true) (hne : path ≠ "/") :
    parent path = normalize (path ++ "/..") := by
  obtain ⟨cs, c, hs⟩ := exists_spells_append h hne
  refine String.toList_inj.mp ?_
  have happend : (path ++ "/..").toList = path.toList ++ '/' :: ['.', '.'] := String.toList_append
  have hsplit : ['.', '.'].splitOn '/' = [['.', '.']] := rfl
  rw [toList_normalize, happend, reduce_append, hs.reduce, hsplit, hs.parent.1, List.foldl_cons,
    List.foldl_nil, enter, if_pos rfl, List.reverse_append]
  exact congrArg ofComponents (List.reverse_reverse cs).symm

/-- Every path has one normal form: what reading its pieces from the root comes to, also where
the path is left alone because it is in normal form already. Normalizing twice is normalizing
once, and what it leaves alone is what counts as normal. Below the root, a path in normal form
is put together again from its parent and its last component, and its parent is what `..` leads
to. -/
theorem normalize_normalForm (path : String) :
    normalize path = String.ofList (ofComponents (reduce path.toList)) ∧
      normalize path = retrace path ∧ NormalForm (normalize path) ∧
      normalize (normalize path) = normalize path ∧
      (normalize path = path ↔ isNormal path = true) ∧
      (isNormal path = true → path ≠ "/" →
        join (parent path) (fileName path) = path ∧ parent path = normalize (path ++ "/..")) := by
  have hnormal : isNormal (normalize path) = true := isNormal_normalize path
  refine ⟨?_, normalize_eq_retrace path, isNormal_iff.mp hnormal, normalize_of_isNormal hnormal,
    normalize_eq_self_iff, fun h hne => ⟨join_parent_fileName h hne, parent_eq_normalize h hne⟩⟩
  rw [← toList_normalize, String.ofList_toList]

theorem normalize_normalForm_dotted :
    join (parent "/a/..b") (fileName "/a/..b") = "/a/..b" ∧
      parent "/a/..b" = normalize "/a/..b/.." := by
  have hparts := (normalize_normalForm "/a/..b").2.2.2.2.2
  exact hparts (by decide) (by decide)

example : normalize "a//b/./c/../../../../..d/" = "/..d" := by decide

end PocketTerminal.Path
