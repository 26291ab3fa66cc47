import PocketTerminal.Files.Change
import PocketTerminal.Proofs.Files.NormalForms
import PocketTerminal.Proofs.Files.Runs
import PocketTerminal.Proofs.Files.Sights
import PocketTerminal.Proofs.Text.Beginnings

/-! # What an input means from a directory

An input means the normal form of some text, and what is put behind the input is put behind that
text. So reading on from where an input leads is reading both at once, and changes of directory
compose. A path as it is displayed is an input that leads back to the path. -/
namespace PocketTerminal

namespace Path

variable {cwd home input path : String} {cs : List Char}

def Relative (input : String) : Prop :=
  input.toList.head? ≠ some '/' ∧ input.toList.head? ≠ some '~'

instance (input : String) : Decidable (Relative input) := inferInstanceAs (Decidable (_ ∧ _))

theorem spells_reduce (path : String) : Spells (normalize path) (reduce path.toList) := by
  refine ⟨toList_normalize path, ?_⟩
  intro c hc
  have hpieces : ∀ piece ∈ path.toList.splitOn '/', '/' ∉ piece := fun piece hpiece =>
    Text.notMem_of_mem_splitOn hpiece
  exact properChars_foldl_enter (List.forall_mem_nil _) hpieces c (List.mem_reverse.mp hc)

theorem toList_append_slash (path more : String) :
    (path ++ "/" ++ more).toList = path.toList ++ '/' :: more.toList := by
  rw [String.toList_append, String.toList_append, List.append_assoc]
  rfl

theorem normalize_congr {path' more more' : String}
    (hpath : reduce path.toList = reduce path'.toList)
    (hmore : ∀ above, (more.toList.splitOn '/').foldl enter above =
      (more'.toList.splitOn '/').foldl enter above) :
    normalize (path ++ "/" ++ more) = normalize (path' ++ "/" ++ more') := by
  apply String.toList_inj.mp
  rw [toList_normalize, toList_normalize, toList_append_slash, toList_append_slash, reduce_append,
    reduce_append, hpath, hmore]

/-- What stands behind a slash may be put behind the normal form of what stands before it. -/
theorem normalize_normalize_append (path more : String) :
    normalize (normalize path ++ "/" ++ more) = normalize (path ++ "/" ++ more) :=
  normalize_congr (spells_reduce path).reduce fun _ => rfl

theorem splitOn_slash_cons (cs : List Char) : ('/' :: cs).splitOn '/' = [] :: cs.splitOn '/' :=
  List.splitOn_append_cons_self_of_not_mem List.not_mem_nil cs

/-- Slashes at the start of what is read on are of no meaning. -/
theorem foldl_enter_dropWhile (above : List (List Char)) (cs : List Char) :
    ((cs.dropWhile (· == '/')).splitOn '/').foldl enter above =
      (cs.splitOn '/').foldl enter above := by
  induction cs with
  | nil => rfl
  | cons c cs ih =>
    by_cases hc : c = '/'
    · subst hc
      have hskip : enter above [] = above := rfl
      have hdrop : ('/' :: cs).dropWhile (· == '/') = cs.dropWhile (· == '/') := rfl
      rw [hdrop, ih, splitOn_slash_cons, List.foldl_cons, hskip]
    · rw [List.dropWhile_cons_of_neg (by simpa using hc)]

theorem normalize_append_slash (path : String) : normalize (path ++ "/" ++ "") = normalize path := by
  apply String.toList_inj.mp
  have hskip : ("".toList.splitOn '/').foldl enter (reduce path.toList).reverse =
      (reduce path.toList).reverse := rfl
  rw [toList_normalize, toList_normalize, toList_append_slash, reduce_append, hskip,
    List.reverse_reverse]

theorem resolve_home (cwd home rest : String) :
    resolve cwd home ("~" ++ rest) = normalize (home ++ "/" ++ rest) := by
  have hinput : ("~" ++ rest).toList = '~' :: rest.toList := String.toList_append
  rw [resolve, hinput]
  apply normalize_congr rfl
  intro above
  rw [String.toList_ofList, foldl_enter_dropWhile]

theorem resolve_relative (cwd home : String) (h : Relative input) :
    resolve cwd home input = normalize (cwd ++ "/" ++ input) := by
  obtain ⟨hslash, htilde⟩ := h
  unfold resolve
  split
  · next rest hinput => exact absurd (by rw [hinput]; rfl) htilde
  · next rest hinput => exact absurd (by rw [hinput]; rfl) hslash
  · next hinput =>
    obtain rfl : input = "" := String.toList_inj.mp hinput
    exact (normalize_append_slash cwd).symm
  · rfl

theorem resolve_rooted (cwd home : String) (h : input.toList.head? = some '/') :
    resolve cwd home input = normalize input := by
  obtain ⟨rest, hinput⟩ := List.head?_eq_some_iff.mp h
  rw [resolve, hinput]
  rfl

/-- What an input means is the normal form of a text to which all that follows it is put. -/
theorem exists_resolve_append (cwd home : String) (hinput : input ≠ "") :
    ∃ start, ∀ more, resolve cwd home (input ++ more) = normalize (start ++ more) := by
  obtain ⟨first, rest, hchars⟩ :=
    List.exists_cons_of_ne_nil fun hnil => hinput (String.toList_inj.mp hnil)
  have hhead : ∀ more, (input ++ more).toList.head? = some first := by
    intro more
    rw [String.toList_append, hchars, List.cons_append, List.head?_cons]
  by_cases htilde : first = '~'
  · have hhome : input = "~" ++ String.ofList rest := by
      apply String.toList_inj.mp
      rw [String.toList_append, hchars, htilde, String.toList_ofList, String.toList_ofList]
      rfl
    refine ⟨home ++ "/" ++ String.ofList rest, fun more => ?_⟩
    rw [hhome, String.append_assoc, resolve_home, String.append_assoc, String.append_assoc,
      String.append_assoc]
  by_cases hslash : first = '/'
  · exact ⟨input, fun more => resolve_rooted cwd home (hslash ▸ hhead more)⟩
  · refine ⟨cwd ++ "/" ++ input, fun more => ?_⟩
    have hrelative : Relative (input ++ more) := by
      rw [Relative, hhead]
      exact ⟨fun h => hslash (Option.some.inj h), fun h => htilde (Option.some.inj h)⟩
    rw [resolve_relative cwd home hrelative, String.append_assoc, String.append_assoc,
      String.append_assoc]

/-- To read an input from where another one leads is to read both at once. -/
theorem resolve_resolve (cwd home : String) {more : String} (hinput : input ≠ "")
    (hmore : Relative more) :
    resolve (resolve cwd home input) home more = resolve cwd home (input ++ "/" ++ more) := by
  obtain ⟨start, hstart⟩ := exists_resolve_append cwd home hinput
  have hfirst : resolve cwd home input = normalize start := by
    have h := hstart ""
    rwa [String.append_empty, String.append_empty] at h
  rw [resolve_relative _ home hmore, hfirst, normalize_normalize_append, String.append_assoc,
    ← hstart, String.append_assoc]

theorem display_below (rest : String) (hne : home ++ "/" ++ rest ≠ home) :
    display (home ++ "/" ++ rest) home = "~" ++ ("/" ++ rest) := by
  have hbelow : Text.begins (home ++ "/") (home ++ "/" ++ rest) = true :=
    Text.begins_iff.mpr ⟨rest, rfl⟩
  have hdrop : (home ++ "/" ++ rest).toList.drop (home.toList.length + 1) = rest.toList := by
    rw [toList_append_slash, List.append_cons, List.drop_left' (by simp)]
  rw [display, if_neg hne, if_pos hbelow, hdrop, String.ofList_toList, ← String.append_assoc]
  rfl

/-- A displayed path leads back to the path, from whatever directory. -/
theorem resolve_display (cwd home : String) (h : isNormal path = true) :
    resolve cwd home (display path home) = path := by
  by_cases hhome : path = home
  · have htilde : display path home = "~" ++ "" := if_pos hhome
    rw [htilde, resolve_home, normalize_append_slash, ← hhome, normalize_of_isNormal h]
  by_cases hbelow : Text.begins (home ++ "/") path = true
  · obtain ⟨rest, rfl⟩ := Text.begins_iff.mp hbelow
    -- behind the tilde stands one slash more than behind home, which the reading skips
    have hskip : normalize (home ++ "/" ++ ("/" ++ rest)) = normalize (home ++ "/" ++ rest) := by
      apply normalize_congr rfl
      intro above
      rw [← foldl_enter_dropWhile above rest.toList, ← foldl_enter_dropWhile, String.toList_append]
      rfl
    rw [display_below rest hhome, resolve_home, hskip, normalize_of_isNormal h]
  · have hsame : display path home = path := by
      rw [display, if_neg hhome, if_neg hbelow]
    rw [hsame, resolve_of_isNormal cwd home h]

theorem display_injective {other : String} (hother : isNormal other = true)
    (hpath : isNormal path = true) (h : display other home = display path home) : other = path := by
  rw [← resolve_display "/" home hother, h, resolve_display "/" home hpath]

end Path

namespace Files.Store

variable {s : Store} {input path : String}

theorem hasDirectory_with_cwd (s : Store) (cwd path : String) :
    Store.hasDirectory { s with cwd := cwd } path = s.hasDirectory path := by
  have hdescend : Store.descend { s with cwd := cwd } = s.descend := by
    funext dir names
    exact descend_congr fun _ _ => rfl
  rw [hasDirectory, hasDirectory, lookup, lookup, hdescend]
  rfl

theorem changeDir_done_iff :
    (s.changeDir input).1 = true ↔ s.hasDirectory (s.resolve input) = true := by
  unfold changeDir
  dsimp only
  split
  · next h => exact iff_of_true rfl h
  · next h => exact iff_of_false Bool.false_ne_true h

theorem changeDir_done (h : (s.changeDir input).1 = true) :
    (s.changeDir input).2 = { s with cwd := s.resolve input } := by
  rw [changeDir, if_pos (changeDir_done_iff.mp h)]

/-- An input read from where another one leads means what both mean at once. So in every store in
which one can go where the first leads, one can go on to where the second leads from there exactly
if one could have gone there at once, and arrives in the same store. -/
theorem changeDir_composes (first more : String) (hfirst : first ≠ "") (hmore : Path.Relative more) :
    (∀ cwd home, Path.resolve (Path.resolve cwd home first) home more =
      Path.resolve cwd home (first ++ "/" ++ more)) ∧
    ∀ s : Store, (s.changeDir first).1 = true →
      (((s.changeDir first).2.changeDir more).1 = true ↔
        (s.changeDir (first ++ "/" ++ more)).1 = true) ∧
      (((s.changeDir first).2.changeDir more).1 = true →
        ((s.changeDir first).2.changeDir more).2 = (s.changeDir (first ++ "/" ++ more)).2) := by
  have hresolve := fun cwd home => Path.resolve_resolve cwd home hfirst hmore
  refine ⟨hresolve, fun s hdone => ?_⟩
  have hthere : Store.resolve { s with cwd := s.resolve first } more =
      s.resolve (first ++ "/" ++ more) := hresolve s.cwd s.home
  have hiff : (((s.changeDir first).2.changeDir more).1 = true ↔
      (s.changeDir (first ++ "/" ++ more)).1 = true) := by
    rw [changeDir_done hdone, changeDir_done_iff, changeDir_done_iff, hthere, hasDirectory_with_cwd]
  refine ⟨hiff, fun hagain => ?_⟩
  rw [changeDir_done hagain, changeDir_done (hiff.mp hagain), changeDir_done hdone, hthere]

/-- From home through parents on both sides of the seam. -/
theorem changeDir_composes_parents :
    ∃ s, run (.empty "/home") [.createDir "a/b" true] = s ∧
      "~//a/x/../b" ≠ "" ∧ Path.Relative "../..//a/." ∧ (s.changeDir "~//a/x/../b").1 = true ∧
      Path.resolve (Path.resolve s.cwd s.home "~//a/x/../b") s.home "../..//a/." =
        Path.resolve s.cwd s.home "~//a/x/../b/../..//a/." ∧
      (((s.changeDir "~//a/x/../b").2.changeDir "../..//a/.").1 = true ↔
        (s.changeDir "~//a/x/../b/../..//a/.").1 = true) := by
  have hfirst : "~//a/x/../b" ≠ "" := by decide
  have hmore : Path.Relative "../..//a/." := by decide
  have hdone : ((run (.empty "/home") [.createDir "a/b" true]).changeDir "~//a/x/../b").1 = true := by
    decide +kernel
  obtain ⟨hresolve, hstores⟩ := changeDir_composes _ _ hfirst hmore
  exact ⟨_, rfl, hfirst, hmore, hdone, hresolve _ _, (hstores _ hdone).1⟩

end Files.Store
end PocketTerminal
