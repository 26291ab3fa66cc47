import Mathlib.Data.List.Basic
import Mathlib.Data.List.TakeWhile
import PocketTerminal.Text.Blank

/-! # Splitting, joining and trimming

What the pieces between two separators are made of, what joining them makes of a list of
pieces that is read around one of them, and what cutting and trimming take away. -/
namespace PocketTerminal.Text

/-- The separator is in none of the pieces. -/
theorem notMem_of_mem_splitOn {separator : Char} {chars piece : List Char}
    (h : piece ∈ chars.splitOn separator) : separator ∉ piece := by
  induction chars generalizing piece with
  | nil =>
    simp only [List.splitOn_nil, List.mem_singleton] at h
    simp [h]
  | cons c chars ih =>
    rw [List.splitOn_cons_eq_if_modifyHead] at h
    split at h
    · rcases List.mem_cons.mp h with rfl | h
      · simp
      · exact ih h
    · next hc =>
      obtain ⟨first, rest, hsplit⟩ := List.exists_cons_of_ne_nil (List.splitOn_ne_nil separator chars)
      rw [hsplit, List.modifyHead_cons] at h
      rcases List.mem_cons.mp h with rfl | h
      · intro hmem
        rcases List.mem_cons.mp hmem with he | hmem
        · exact hc (beq_iff_eq.mpr he.symm)
        · exact ih (hsplit ▸ List.mem_cons_self) hmem
      · exact ih (hsplit ▸ List.mem_cons_of_mem _ h)

theorem intercalate_cons (separator : Char) (piece : List Char) (pieces : List (List Char)) :
    [separator].intercalate (piece :: pieces) = piece ++ pieces.flatMap (separator :: ·) := by
  induction pieces generalizing piece with
  | nil => simp
  | cons next pieces ih => simp [ih next]

/-- Joined pieces, read around one of them: each piece before it ends in the separator and
each one after it begins with the separator. -/
theorem intercalate_append_cons (separator : Char) (before : List (List Char)) (piece : List Char)
    (after : List (List Char)) :
    [separator].intercalate (before ++ piece :: after) =
      before.flatMap (· ++ [separator]) ++ (piece ++ after.flatMap (separator :: ·)) := by
  induction before with
  | nil => simpa using intercalate_cons separator piece after
  | cons first before ih =>
    have hne : before ++ piece :: after ≠ [] := by simp
    rw [List.cons_append, List.intercalate_cons_of_ne_nil hne, ih]
    simp

theorem eq_of_cutAt {c : Char} {cs before behind : List Char}
    (h : cutAt c cs = some (before, behind)) : cs = before ++ c :: behind := by
  induction cs generalizing before with
  | nil => cases h
  | cons d cs ih =>
    rw [cutAt] at h
    split at h
    · next hd =>
      cases h
      rw [hd]
      rfl
    · obtain ⟨⟨before', behind'⟩, hcut, he⟩ := Option.map_eq_some_iff.mp h
      cases he
      rw [ih hcut]
      rfl

theorem cutAt_append_cons {c : Char} {before : List Char} (h : c ∉ before) (behind : List Char) :
    cutAt c (before ++ c :: behind) = some (before, behind) := by
  induction before with
  | nil => exact if_pos rfl
  | cons d before ih =>
    obtain ⟨hd, hbefore⟩ := not_or.mp (List.mem_cons.not.mp h)
    rw [List.cons_append, cutAt, if_neg (Ne.symm hd), ih hbefore]
    rfl

theorem dropWhile_isBlank_of_none {cs : List Char} (h : ∀ c ∈ cs, isBlank c = false) :
    cs.dropWhile isBlank = cs := by
  cases cs with
  | nil => rfl
  | cons c cs =>
    exact List.dropWhile_cons_of_neg (Bool.eq_false_iff.mp (h c List.mem_cons_self))

theorem trimChars_of_none {cs : List Char} (h : ∀ c ∈ cs, isBlank c = false) :
    trimChars cs = cs := by
  have hreverse : ∀ c ∈ cs.reverse, isBlank c = false := fun c hc => h c (List.mem_reverse.mp hc)
  rw [trimChars, dropWhile_isBlank_of_none h, dropWhile_isBlank_of_none hreverse,
    List.reverse_reverse]

/-- A text is its trimmed part between blanks. -/
theorem exists_trimChars (cs : List Char) :
    ∃ before behind, cs = before ++ (trimChars cs ++ behind) ∧
      (∀ c ∈ before, isBlank c) ∧ ∀ c ∈ behind, isBlank c := by
  let kept := cs.dropWhile isBlank
  have hstart : cs.takeWhile isBlank ++ kept = cs := List.takeWhile_append_dropWhile
  have hend : trimChars cs ++ (kept.reverse.takeWhile isBlank).reverse = kept := by
    rw [trimChars, ← List.reverse_append, List.takeWhile_append_dropWhile, List.reverse_reverse]
  refine ⟨cs.takeWhile isBlank, (kept.reverse.takeWhile isBlank).reverse, ?_,
    fun c => List.mem_takeWhile_imp, fun c hc => ?_⟩
  · rw [hend, hstart]
  · exact List.mem_takeWhile_imp (List.mem_reverse.mp hc)

theorem trimChars_between {before cs behind : List Char} (hbefore : ∀ c ∈ before, isBlank c)
    (hcs : ∀ c ∈ cs, isBlank c = false) (hbehind : ∀ c ∈ behind, isBlank c) :
    trimChars (before ++ (cs ++ behind)) = cs := by
  cases cs with
  | nil =>
    have hall : (before ++ behind).dropWhile isBlank = [] := by
      rw [List.dropWhile_eq_nil_iff]
      exact fun c hc => (List.mem_append.mp hc).elim (hbefore c) (hbehind c)
    rw [List.nil_append, trimChars, hall]
    rfl
  | cons c cs =>
    have hc : ¬isBlank c = true := Bool.eq_false_iff.mp (hcs c List.mem_cons_self)
    have hfront : (before ++ (c :: cs ++ behind)).dropWhile isBlank = c :: cs ++ behind := by
      rw [List.dropWhile_append_of_pos hbefore, List.cons_append, List.dropWhile_cons_of_neg hc]
    have hreverse : ∀ c ∈ behind.reverse, isBlank c := fun c hc => hbehind c (List.mem_reverse.mp hc)
    have hkept : ∀ d ∈ (c :: cs).reverse, isBlank d = false := fun d hd => hcs d (List.mem_reverse.mp hd)
    rw [trimChars, hfront, List.reverse_append, List.dropWhile_append_of_pos hreverse,
      dropWhile_isBlank_of_none hkept, List.reverse_reverse]

theorem trimChars_eq_nil_iff {cs : List Char} : trimChars cs = [] ↔ ∀ c ∈ cs, isBlank c = true := by
  constructor
  · intro h
    obtain ⟨before, behind, hsplit, hbefore, hbehind⟩ := exists_trimChars cs
    rw [h, List.nil_append] at hsplit
    intro c hc
    rw [hsplit] at hc
    exact (List.mem_append.mp hc).elim (hbefore c) (hbehind c)
  · intro h
    rw [trimChars, List.dropWhile_eq_nil_iff.mpr h]
    rfl

theorem trim_eq_empty_iff {s : String} : trim s = "" ↔ allBlank s = true := by
  rw [trim, String.ofList_eq_empty_iff, trimChars_eq_nil_iff, allBlank, List.all_eq_true]

end PocketTerminal.Text
