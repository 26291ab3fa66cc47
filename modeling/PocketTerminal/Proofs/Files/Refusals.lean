import PocketTerminal.Proofs.Files.Runs

/-! # What a refused change leaves

Some operations change the store while they still look where they go. None of them is
refused after its first change, so a refused one leaves the very store it was given. -/
namespace PocketTerminal.Files

def Removal.isDone : Removal → Bool
  | removed _ => true
  | notEmpty | notFound | protectedRoot => false

theorem Removal.isDone_iff {answer : Removal} :
    answer.isDone = true ↔ ∃ node, answer = .removed node := by
  cases answer <;> simp [isDone]

namespace Store

variable {s : Store} {dir : Slot}

def grants (s : Store) : Change → Bool
  | .rebuild _ _ => true
  | .changeDir input => (s.changeDir input).1
  | .createDir input recursive => (s.createDir input recursive).1
  | .createFile input content => (s.createFile input content).1
  | .writeFile input content mode => (s.writeFile input content mode).1
  | .remove input recursive => (s.remove input recursive).1.isDone
  | .copy source destination => (s.copy source destination).1
  | .move source destination => (s.move source destination).1

theorem changeDir_refused {input : String} (h : (s.changeDir input).1 = false) :
    (s.changeDir input).2 = s := by
  unfold changeDir at h ⊢
  dsimp only at h ⊢
  split
  · next hd =>
    rw [if_pos hd] at h
    cases h
  · rfl

/-- In a directory without entries nothing can be in the way. -/
theorem createAlong_granted {names : List String} (h : s.Forest none) (hdir : s.isDirectory dir = true)
    (hempty : s.children dir = []) (hnames : ∀ n ∈ names, Path.ProperName n) :
    (createAlong true s dir names).1 = true := by
  induction names generalizing s dir with
  | nil => rfl
  | cons name rest ih =>
    have hfree : s.find? dir name = none := by
      rw [find?, hempty]
      rfl
    obtain ⟨new, t, hinsert, ht, -, hat, -⟩ :=
      insert_spec none h hdir hfree (hnames name List.mem_cons_self) leaf_empty
    rw [createAlong, hfree]
    simp only [Bool.not_true, Bool.and_false, Bool.false_eq_true, if_false, hinsert]
    exact ih ht (isDirectory_iff.mpr ⟨_, hat, rfl⟩) (children_eq hat)
      fun n hn => hnames n (List.mem_cons_of_mem _ hn)

/-- Once a directory is made, all others on the way are new and go into new ones. -/
theorem createAlong_refused {recursive : Bool} {names : List String} (h : s.Forest none)
    (hdir : s.isDirectory dir = true) (hnames : ∀ n ∈ names, Path.ProperName n)
    (hno : (createAlong recursive s dir names).1 = false) :
    (createAlong recursive s dir names).2 = s := by
  induction names generalizing dir with
  | nil => cases hno
  | cons name rest ih =>
    have hrest : ∀ n ∈ rest, Path.ProperName n := fun n hn => hnames n (List.mem_cons_of_mem _ hn)
    unfold createAlong at hno ⊢
    cases hf : s.find? dir name with
    | some slot =>
      simp only [hf] at hno ⊢
      split
      · rfl
      · next hgo =>
        rw [if_neg hgo] at hno
        simp only [Bool.or_eq_true, not_or, Bool.not_eq_true', Bool.not_eq_false] at hgo
        exact ih hgo.1 hrest hno
    | none =>
      simp only [hf] at hno ⊢
      split
      · rfl
      · next hgo =>
        rw [if_neg hgo] at hno
        obtain ⟨new, t, hinsert, ht, -, hat, -⟩ :=
          insert_spec none h hdir hf (hnames name List.mem_cons_self) leaf_empty
        simp only [hinsert] at hno
        cases rest with
        | nil => cases hno
        | cons next rest =>
          -- The directory just made is empty, so the rest of the way cannot be refused.
          have hrec : recursive = true := by simpa using hgo
          subst hrec
          rw [createAlong_granted ht (isDirectory_iff.mpr ⟨_, hat, rfl⟩) (children_eq hat) hrest] at hno
          cases hno

theorem Settled.createDir_refused (h : s.Settled) {input : String} {recursive : Bool}
    (hno : (s.createDir input recursive).1 = false) : (s.createDir input recursive).2 = s :=
  createAlong_refused h.forest h.forest.root_directory
    (fun _ hn => Path.properName_of_mem_components (Path.isNormal_resolve ..) hn) hno

theorem createFile_refused {input content : String} (hno : (s.createFile input content).1 = false) :
    (s.createFile input content).2 = s := by
  unfold createFile at hno ⊢
  dsimp only at hno ⊢
  split
  · rfl
  · next hfree =>
    rw [if_neg hfree] at hno
    split
    · next dir hdir =>
      simp only [hdir] at hno
      split
      · next hd =>
        rw [if_pos hd] at hno
        cases hno
      · rfl
    · rfl

theorem writeFile_refused {input content : String} {mode : WriteMode}
    (hno : (s.writeFile input content mode).1 = false) : (s.writeFile input content mode).2 = s := by
  unfold writeFile at hno ⊢
  dsimp only at hno ⊢
  split
  · next slot hslot =>
    simp only [hslot] at hno
    split
    · next old hold =>
      simp only [hold] at hno
      cases hno
    · rfl
  · next hslot =>
    simp only [hslot] at hno
    split
    · next hcreate =>
      rw [if_pos hcreate] at hno
      exact createFile_refused hno
    · rfl

theorem remove_refused {input : String} {recursive : Bool}
    (hno : (s.remove input recursive).1.isDone = false) : (s.remove input recursive).2 = s := by
  unfold remove at hno ⊢
  dsimp only at hno ⊢
  split
  · rfl
  · next hne =>
    rw [if_neg hne] at hno
    split
    · rfl
    · next slot hslot =>
      simp only [hslot] at hno
      split
      · rfl
      · next hentries =>
        rw [if_neg hentries] at hno
        split
        · rfl
        · next node hnode =>
          simp only [hnode] at hno
          cases hno

/-- The tree at an entry can always be read. -/
theorem exists_tree? {i : Slot} (h : s.Live i) : ∃ node, s.tree? i = some node :=
  exists_treeAt (Nat.zero_lt_of_lt h.lt_size) h

theorem Settled.copy_refused (h : s.Settled) {source destination : String}
    (hno : (s.copy source destination).1 = false) : (s.copy source destination).2 = s := by
  unfold Store.copy at hno ⊢
  dsimp only at hno ⊢
  split
  · rfl
  · next slot hslot =>
    simp only [hslot] at hno
    split
    · rfl
    · next hroot =>
      rw [if_neg hroot] at hno
      split
      · rfl
      · next dir name hland =>
        simp only [hland] at hno
        split
        · rfl
        · next hother =>
          rw [if_neg hother] at hno
          obtain ⟨hdir, -⟩ := h.forest.landing?_spec hroot (Path.isNormal_resolve ..) hland
          rcases h.forest.clearLanding_spec name (h.forest.live_of_lookup hslot) hdir with
            hkept | ⟨t, hcleared, ht⟩
          · rw [hkept]
          · obtain ⟨node, hnode⟩ := exists_tree? ht.source_live
            simp only [hcleared, hnode] at hno
            cases hno

theorem Settled.move_refused (h : s.Settled) {source destination : String}
    (hno : (s.move source destination).1 = false) : (s.move source destination).2 = s := by
  unfold Store.move at hno ⊢
  dsimp only at hno ⊢
  split
  · rfl
  · next slot hslot =>
    simp only [hslot] at hno
    split
    · rfl
    · next hroot =>
      rw [if_neg hroot] at hno
      split
      · rfl
      · next dir name hland =>
        simp only [hland] at hno
        obtain ⟨hdir, -⟩ := h.forest.landing?_spec hroot (Path.isNormal_resolve ..) hland
        rcases h.forest.clearLanding_spec name (h.forest.live_of_lookup hslot) hdir with
          hkept | ⟨t, hcleared, -⟩
        · rw [hkept]
        · simp only [hcleared] at hno
          cases hno

theorem Settled.perform_refused (h : s.Settled) {change : Change} (hno : s.grants change = false) :
    s.perform change = s := by
  cases change with
  | rebuild seeds home => cases hno
  | changeDir input => exact changeDir_refused hno
  | createDir input recursive => exact h.createDir_refused hno
  | createFile input content => exact createFile_refused hno
  | writeFile input content mode => exact writeFile_refused hno
  | remove input recursive => exact remove_refused hno
  | copy source destination => exact h.copy_refused hno
  | move source destination => exact h.move_refused hno

/-- A refused change leaves a store equal to the one it was given, in every slot, in the
free slots and in both directories, so nothing that can be asked of it is answered
differently. -/
theorem run_refused (origin : Origin) (changes : List Change) {change : Change}
    (hno : (run origin changes).grants change = false) :
    (run origin changes).perform change = run origin changes :=
  ((settled_origin origin).foldl_perform changes).perform_refused hno

/-- A directory is not copied onto a file, which keeps its place and its text. -/
theorem run_refused_copy :
    (run (.empty "/home") [.createFile "a" "text", .createDir "b/c" true]).grants (.copy "b/c" "a") =
        false ∧
      (run (.empty "/home") [.createFile "a" "text", .createDir "b/c" true]).perform
          (.copy "b/c" "a") =
        run (.empty "/home") [.createFile "a" "text", .createDir "b/c" true] :=
  have hno : (run (.empty "/home") [.createFile "a" "text", .createDir "b/c" true]).grants
      (.copy "b/c" "a") = false := by decide +kernel
  ⟨hno, run_refused (.empty "/home") [.createFile "a" "text", .createDir "b/c" true] hno⟩

end Store
end PocketTerminal.Files
