import PocketTerminal.Proofs.Files.Growing
import PocketTerminal.Proofs.Files.Removals

/-! # Writing to files

A write is seen at its own path only, and what it is answered depends on what stands there and,
for a new file, on whether the directory does. No write makes or takes a directory, so writes to
two paths do not touch each other, whichever comes first and whatever they are answered. -/
namespace PocketTerminal.Files

namespace Sight

def content? : Sight → Option String
  | file content _ => some content
  | directory _ => none

def pageSection : Sight → Option String
  | file _ pageSection | directory pageSection => pageSection

end Sight

@[simp] theorem Entry.content?_sight (e : Entry) : e.sight.content? = e.content? := by
  unfold sight content?
  cases e.payload <;> rfl

@[simp] theorem Entry.pageSection_sight (e : Entry) : e.sight.pageSection = e.pageSection := by
  unfold sight
  cases e.payload <;> rfl

section Written

variable (mode : WriteMode) (content : String)

/-- The text of a file goes behind its old one or in its place. -/
theorem content?_written (seen : Option Sight) : (mode.written content seen).content? =
    some ((seen.bind Sight.content?).elim content fun old =>
      if mode.append then old ++ content else content) := by
  cases seen with
  | none => rfl
  | some sight => cases sight <;> rfl

theorem pageSection_written {seen : Option Sight} (h : seen.any Sight.isDirectory = false) :
    (mode.written content seen).pageSection = seen.bind Sight.pageSection := by
  cases seen with
  | none => rfl
  | some sight =>
    cases sight with
    | file => rfl
    | directory => cases h

@[simp] theorem isDirectory_written (seen : Option Sight) :
    (mode.written content seen).isDirectory = false := by
  cases seen with
  | none => rfl
  | some sight => cases sight <;> rfl

end Written

namespace View

def takesText (view : View) (mode : WriteMode) (path : List String) : Bool :=
  (view path).elim (mode.create && (view path.dropLast).any Sight.isDirectory) (!·.isDirectory)

def write (view : View) (mode : WriteMode) (content : String) (path : List String) : View :=
  if view.takesText mode path then fun p =>
    if p = path then some (mode.written content (view p)) else view p
  else view

variable {view : View} {mode mode' : WriteMode} {content content' : String} {a b p : List String}

theorem write_of_not (h : view.takesText mode a = false) : view.write mode content a = view := by
  rw [write, h, if_neg Bool.false_ne_true]

theorem write_at (h : view.takesText mode a = true) :
    view.write mode content a a = some (mode.written content (view a)) := by
  rw [write, if_pos h, if_pos rfl]

theorem write_of_ne (hne : p ≠ a) : view.write mode content a p = view p := by
  unfold write
  split
  · exact if_neg hne
  · rfl

theorem not_directory_of_takesText (h : view.takesText mode a = true) :
    (view a).any Sight.isDirectory = false := by
  unfold takesText at h
  cases hv : view a with
  | none => rfl
  | some sight => simpa [hv] using h

/-- Directories are where they were before a write. -/
theorem any_write : (view.write mode content a p).any Sight.isDirectory =
    (view p).any Sight.isDirectory := by
  cases h : view.takesText mode a with
  | false => rw [write_of_not h]
  | true =>
    by_cases hp : p = a
    · rw [hp, write_at h, not_directory_of_takesText h, Option.any_some, isDirectory_written]
    · rw [write_of_ne hp]

/-- A write neither lets another one in nor keeps it out. -/
theorem takesText_write (hne : b ≠ a) :
    (view.write mode content a).takesText mode' b = view.takesText mode' b := by
  rw [takesText, any_write, write_of_ne hne, takesText]

theorem write_write_at (hne : b ≠ a) : (view.write mode content a).write mode' content' b b =
    view.write mode' content' b b := by
  have htakes : (view.write mode content a).takesText mode' b = view.takesText mode' b :=
    takesText_write hne
  cases h : view.takesText mode' b with
  | false => rw [write_of_not (htakes.trans h), write_of_not h, write_of_ne hne]
  | true => rw [write_at (htakes.trans h), write_at h, write_of_ne hne]

theorem write_comm (hne : b ≠ a) : (view.write mode content a).write mode' content' b =
    (view.write mode' content' b).write mode content a := by
  funext p
  by_cases ha : p = a
  · subst ha
    rw [write_of_ne hne.symm, write_write_at hne.symm]
  · by_cases hb : p = b
    · subst hb
      rw [write_write_at hne, write_of_ne hne]
    · rw [write_of_ne hb, write_of_ne ha, write_of_ne ha, write_of_ne hb]

end View

structure Writing where
  input : String
  content : String
  mode : WriteMode

namespace Store

variable {s t : Store} {input other content : String} {mode : WriteMode}

def write (s : Store) (w : Writing) : Bool × Store := s.writeFile w.input w.content w.mode

theorem sight?_trail : s.sight? (s.trail input) = (s.get? input).map Entry.sight := by
  rw [get?, sight?, ← lookup_resolve]
  cases s.lookup (s.resolve input) <;> rfl

theorem read?_eq : s.read? input = (s.sight? (s.trail input)).bind Sight.content? := by
  rw [sight?_trail, read?]
  cases s.get? input with
  | none => rfl
  | some e => exact (Entry.content?_sight e).symm

theorem pageSection_eq : (s.get? input).bind Entry.pageSection =
    (s.sight? (s.trail input)).bind Sight.pageSection := by
  rw [sight?_trail]
  cases s.get? input with
  | none => rfl
  | some e => exact (Entry.pageSection_sight e).symm

/-- Paths in normal form are different where the names along them are. -/
theorem trail_ne (hne : s.resolve other ≠ s.resolve input) : s.trail other ≠ s.trail input := by
  intro he
  exact hne (Path.eq_of_components (Path.isNormal_resolve ..) (Path.isNormal_resolve ..) he)

theorem createFile_cwd_home : (s.createFile input content).2.cwd = s.cwd ∧
    (s.createFile input content).2.home = s.home := by
  unfold createFile
  dsimp only
  split
  · exact ⟨rfl, rfl⟩
  · split
    · split
      · simp [insert]
      · exact ⟨rfl, rfl⟩
    · exact ⟨rfl, rfl⟩

theorem writeFile_cwd_home : (s.writeFile input content mode).2.cwd = s.cwd ∧
    (s.writeFile input content mode).2.home = s.home := by
  unfold writeFile
  dsimp only
  split
  · split
    · exact ⟨modify_cwd _, modify_home _⟩
    · exact ⟨rfl, rfl⟩
  · split
    · exact createFile_cwd_home
    · exact ⟨rfl, rfl⟩

@[simp] theorem write_cwd (w : Writing) : (s.write w).2.cwd = s.cwd := by
  unfold write
  exact writeFile_cwd_home.1

@[simp] theorem write_home (w : Writing) : (s.write w).2.home = s.home := by
  unfold write
  exact writeFile_cwd_home.2

@[simp] theorem trail_write (w : Writing) : (s.write w).2.trail input = s.trail input :=
  trail_congr (write_cwd w) (write_home w) input

namespace Forest

variable (h : s.Forest none)
include h

/-- A file can be made where nothing is, in a directory that is there. -/
theorem createFile_done_iff : (s.createFile input content).1 = true ↔
    s.sight? (s.trail input) = none ∧ s.leadsToDirectory (s.trail input).dropLast = true := by
  rw [h.sight?_eq_none_iff, ← lookup_resolve]
  unfold createFile
  dsimp only
  by_cases hroot : s.resolve input = "/"
  · refine iff_of_false (by simp [hroot]) ?_
    rintro ⟨hnone, -⟩
    rw [hroot, lookup_root] at hnone
    cases hnone
  · have hparent : (s.trail input).dropLast = Path.components (Path.parent (s.resolve input)) := by
      have hnormal : Path.isNormal (s.resolve input) = true := Path.isNormal_resolve ..
      rw [trail, Path.components_eq_parent_append hnormal hroot, List.dropLast_concat]
    rw [hparent, ← hasDirectory_eq, hasDirectory]
    cases hslot : s.lookup (s.resolve input) with
    | some slot => simp
    | none =>
      cases hdir : s.lookup (Path.parent (s.resolve input)) with
      | none => simp [hroot]
      | some dir => cases hd : s.isDirectory dir <;> simp [hroot, hd]

theorem writeFile_done :
    (s.writeFile input content mode).1 = View.takesText s.sight? mode (s.trail input) := by
  unfold writeFile View.takesText
  dsimp only
  cases hslot : s.lookup (s.resolve input) with
  | none =>
    have hnone : s.sight? (s.trail input) = none := h.sight?_eq_none_iff.mpr hslot
    have hcreate : (s.createFile (s.resolve input) content).1 =
        s.leadsToDirectory (s.trail input).dropLast := by
      rw [Bool.eq_iff_iff, h.createFile_done_iff, trail_resolve]
      exact and_iff_right hnone
    rw [hnone, Option.elim_none, ← leadsToDirectory, ← hcreate]
    dsimp only
    cases mode.create with
    | false => rw [if_neg Bool.false_ne_true, Bool.false_and]
    | true => rw [if_pos rfl, Bool.true_and]
  | some slot =>
    obtain ⟨e, he⟩ := h.live_of_lookup hslot
    have hsight : s.sight? (s.trail input) = some e.sight := by
      rw [lookup_resolve] at hslot
      rw [sight?_of_descend hslot, sightAt?, he, Option.map_some]
    simp only [he, hsight, Option.bind_some, Option.elim_some, Entry.isDirectory_sight]
    unfold Entry.content? Entry.isDirectory
    cases e.payload <;> rfl

theorem write_done (w : Writing) :
    (s.write w).1 = View.takesText s.sight? w.mode (s.trail w.input) := h.writeFile_done

/-- What stands where after a write, whether it was done or not. -/
theorem sight?_write (w : Writing) : (s.write w).2.sight? =
    View.write s.sight? w.mode w.content (s.trail w.input) := by
  have hdone : (s.writeFile w.input w.content w.mode).1 =
    View.takesText s.sight? w.mode (s.trail w.input) := h.writeFile_done
  cases htakes : View.takesText s.sight? w.mode (s.trail w.input) with
  | false => rw [View.write_of_not htakes, write, writeFile_refused (hdone.trans htakes)]
  | true =>
    funext p
    rw [View.write, if_pos htakes, write, h.sight?_writeFile (hdone.trans htakes)]

end Forest

/-- Of two writes neither changes what the other one is answered, and either may come first. -/
structure Independent (s : Store) (v w : Writing) : Prop where
  left_eq : ((s.write w).2.write v).1 = (s.write v).1
  right_eq : ((s.write v).2.write w).1 = (s.write w).1
  alike : ((s.write v).2.write w).2.Alike ((s.write w).2.write v).2

/-- A text is read where it has been written, behind the old one or in its place, with the page
section that was there. What is read elsewhere is what it was. -/
structure Wrote (s t : Store) (w : Writing) : Prop where
  read?_eq : t.read? w.input = some ((s.read? w.input).elim w.content fun old =>
    if w.mode.append then old ++ w.content else w.content)
  pageSection_eq : (t.get? w.input).bind Entry.pageSection =
    (s.get? w.input).bind Entry.pageSection
  elsewhere : ∀ other, s.resolve other ≠ s.resolve w.input → t.read? other = s.read? other

variable {v w : Writing}

theorem Settled.write (h : s.Settled) (w : Writing) : (s.write w).2.Settled :=
  h.writeFile w.input w.content w.mode

theorem Settled.write_answer (h : s.Settled) (hne : s.resolve v.input ≠ s.resolve w.input) :
    ((s.write w).2.write v).1 = (s.write v).1 := by
  calc ((s.write w).2.write v).1
      = View.takesText (s.write w).2.sight? v.mode ((s.write w).2.trail v.input) :=
        (h.write w).forest.write_done v
    _ = View.takesText s.sight? v.mode (s.trail v.input) := by
        rw [h.forest.sight?_write, trail_write, View.takesText_write (trail_ne hne)]
    _ = (s.write v).1 := (h.forest.write_done v).symm

theorem Settled.sight?_write_write (h : s.Settled) (v w : Writing) :
    ((s.write v).2.write w).2.sight? =
      (View.write s.sight? v.mode v.content (s.trail v.input)).write w.mode w.content
        (s.trail w.input) := by
  rw [(h.write v).forest.sight?_write, h.forest.sight?_write, trail_write]

theorem Settled.independent (h : s.Settled) (hne : s.resolve v.input ≠ s.resolve w.input) :
    s.Independent v w := by
  refine ⟨h.write_answer hne, h.write_answer hne.symm, ?_⟩
  refine alike_of_sight?_eq ((h.write v).write w).forest ((h.write w).write v).forest ?_ ?_ ?_
  · intro names
    rw [h.sight?_write_write, h.sight?_write_write, View.write_comm (trail_ne hne.symm)]
  · simp only [write_cwd]
  · simp only [write_home]

theorem Forest.wrote (h : s.Forest none) (hdone : (s.write w).1 = true) :
    s.Wrote (s.write w).2 w := by
  rw [h.write_done] at hdone
  have hseen : (s.write w).2.sight? (s.trail w.input) =
      some (w.mode.written w.content (s.sight? (s.trail w.input))) := by
    rw [h.sight?_write, View.write_at hdone]
  constructor
  · rw [read?_eq, trail_write, hseen, Option.bind_some, content?_written, ← read?_eq]
  · rw [pageSection_eq, trail_write, hseen, Option.bind_some,
      pageSection_written _ _ (View.not_directory_of_takesText hdone), ← pageSection_eq]
  · intro other hne
    rw [read?_eq, trail_write, h.sight?_write, View.write_of_ne (trail_ne hne), ← read?_eq]

/-- For every store that comes about, and whatever is typed: two texts that go to different paths
can be written in either order, with the same answers and the same outcome. A text that has been
written is read where it went, and changes nothing that is read elsewhere. -/
theorem run_writeFile (origin : Origin) (changes : List Change) :
    (∀ v w : Writing, (run origin changes).resolve v.input ≠ (run origin changes).resolve w.input →
      (run origin changes).Independent v w) ∧
    ∀ w : Writing, ((run origin changes).write w).1 = true →
      (run origin changes).Wrote ((run origin changes).write w).2 w := by
  have h := (settled_origin origin).foldl_perform changes
  constructor
  · intro v w hne
    exact h.independent hne
  · intro w hdone
    exact h.forest.wrote hdone

/-- A file made where another path would have to find a directory, and a text that goes behind
the one it finds. -/
theorem run_writeFile_beside :
    ∃ s, run (.empty "/home") [.createFile "a" "old"] = s ∧
      s.Independent ⟨"b", "", { create := true }⟩ ⟨"b/c", "text", { create := true }⟩ ∧
      (s.write ⟨"b", "", { create := true }⟩).1 = true ∧
      (s.write ⟨"b/c", "text", { create := true }⟩).1 = false ∧
      s.Wrote (s.write ⟨"a", "new", { append := true }⟩).2 ⟨"a", "new", { append := true }⟩ ∧
      (s.write ⟨"a", "new", { append := true }⟩).2.read? "~/a" = some "oldnew" := by
  obtain ⟨hindependent, hwrote⟩ := run_writeFile (.empty "/home") [.createFile "a" "old"]
  have hmade : ((run (.empty "/home") [.createFile "a" "old"]).write
      ⟨"b", "", { create := true }⟩).1 = true := by decide +kernel
  have hrefused : ((run (.empty "/home") [.createFile "a" "old"]).write
      ⟨"b/c", "text", { create := true }⟩).1 = false := by decide +kernel
  have hread : ((run (.empty "/home") [.createFile "a" "old"]).write
      ⟨"a", "new", { append := true }⟩).2.read? "~/a" = some "oldnew" := by decide +kernel
  exact ⟨_, rfl, hindependent _ _ (by decide +kernel), hmade, hrefused,
    hwrote _ (by decide +kernel), hread⟩

end Store
end PocketTerminal.Files
