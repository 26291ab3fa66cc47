import Mathlib.Data.List.Basic
import PocketTerminal.Text.Blank

/-! # How texts begin

One text begins another when the other is the one with something behind it. The ASCII lower case
of a text has the size in bytes that the text has, so of two texts that begin a third one, letter
case aside, the size tells which begins the other. -/
namespace PocketTerminal.Text

variable {start other s t : String} {c : Char}

theorem begins_iff_toList : begins start s = true ↔ start.toList <+: s.toList := by
  rw [begins, List.isPrefixOf_iff_prefix]

theorem begins_iff : begins start s = true ↔ ∃ rest, s = start ++ rest := by
  rw [begins_iff_toList]
  constructor
  · rintro ⟨rest, hrest⟩
    refine ⟨String.ofList rest, String.toList_inj.mp ?_⟩
    rw [String.toList_append, String.toList_ofList, hrest]
  · rintro ⟨rest, rfl⟩
    exact ⟨rest.toList, String.toList_append.symm⟩

theorem begins_append (start rest : String) : begins start (start ++ rest) = true :=
  begins_iff.mpr ⟨rest, rfl⟩

theorem begins_refl (s : String) : begins s s = true :=
  begins_iff_toList.mpr (List.prefix_refl _)

theorem begins_trans (h : begins start s = true) (h' : begins s t = true) : begins start t = true :=
  begins_iff_toList.mpr ((begins_iff_toList.mp h).trans (begins_iff_toList.mp h'))

theorem utf8ByteSize_le_of_begins (h : begins start s = true) :
    start.utf8ByteSize ≤ s.utf8ByteSize := by
  obtain ⟨rest, rfl⟩ := begins_iff.mp h
  rw [String.utf8ByteSize_append]
  omega

/-- Of two texts that begin a third one, the smaller begins the larger. -/
theorem begins_of_lt (hstart : begins start s = true) (hother : begins other s = true)
    (hlt : start.utf8ByteSize < other.utf8ByteSize) : begins start other = true := by
  have hcases := List.prefix_or_prefix_of_prefix (begins_iff_toList.mp hstart)
    (begins_iff_toList.mp hother)
  rcases hcases with h | h
  · exact begins_iff_toList.mpr h
  · have hle := utf8ByteSize_le_of_begins (begins_iff_toList.mpr h)
    omega

theorem begins_antisymm (h : begins start s = true) (h' : begins s start = true) : start = s := by
  have hstarts := begins_iff_toList.mp h
  have hlength := (begins_iff_toList.mp h').length_le
  exact String.toList_inj.mp (hstarts.eq_of_length (Nat.le_antisymm hstarts.length_le hlength))

/-- A text that begins another ends between two characters of it. -/
theorem isValid_of_begins (h : begins start s = true) : start.rawEndPos.IsValid s := by
  obtain ⟨rest, rfl⟩ := begins_iff.mp h
  exact String.Pos.Raw.isValid_iff_exists_append.mpr ⟨start, rest, rfl, rfl⟩

theorem lowerAscii_append (s t : String) : lowerAscii (s ++ t) = lowerAscii s ++ lowerAscii t := by
  rw [lowerAscii, String.toList_append, List.map_append, String.ofList_append]
  rfl

theorem begins_lowerAscii (h : begins start s = true) :
    begins (lowerAscii start) (lowerAscii s) = true := by
  obtain ⟨rest, rfl⟩ := begins_iff.mp h
  rw [lowerAscii_append]
  exact begins_append _ _

theorem isUpper_iff : c.isUpper = true ↔ 65 ≤ c.toNat ∧ c.toNat ≤ 90 :=
  decide_eq_true_iff

theorem toLower_eq_self (hc : c.isUpper = false) : c.toLower = c := by
  have hrange : ¬(c.val ≥ 'A'.val ∧ c.val ≤ 'Z'.val) := of_decide_eq_false hc
  exact dif_neg hrange

theorem toNat_toLower (hc : c.isUpper = true) : c.toLower.toNat = c.toNat + 32 := by
  obtain ⟨hlow, hhigh⟩ := isUpper_iff.mp hc
  have hrange : c.val ≥ 'A'.val ∧ c.val ≤ 'Z'.val := ⟨hlow, hhigh⟩
  have hword : c.toLower.val = c.val + 32 := congrArg Char.val (dif_pos hrange)
  have hsum : (c.val + 32).toNat = (c.toNat + 32) % 2 ^ 32 := UInt32.toNat_add c.val 32
  rw [Char.toNat, hword, hsum]
  omega

theorem utf8Size_of_lt (hc : c.toNat < 128) : c.utf8Size = 1 :=
  Char.utf8Size_eq_one_iff.mpr (UInt32.le_iff_toNat_le.mpr (Nat.le_of_lt_succ hc))

theorem utf8Size_toLower (c : Char) : c.toLower.utf8Size = c.utf8Size := by
  cases hc : c.isUpper with
  | false => rw [toLower_eq_self hc]
  | true =>
    obtain ⟨hlow, hhigh⟩ := isUpper_iff.mp hc
    have hlower := toNat_toLower hc
    rw [utf8Size_of_lt (by omega), utf8Size_of_lt (by omega)]

def hasCapital (s : String) : Bool := s.toList.any Char.isUpper

theorem hasCapital_eq_false_iff : hasCapital s = false ↔ ∀ c ∈ s.toList, c.isUpper = false := by
  rw [hasCapital, List.any_eq_false]
  exact forall₂_congr fun _ _ => iff_of_eq (Bool.not_eq_true _)

theorem hasCapital_of_begins (h : begins start s = true) (hs : hasCapital s = false) :
    hasCapital start = false := by
  rw [hasCapital_eq_false_iff] at hs ⊢
  intro c hc
  exact hs c ((begins_iff_toList.mp h).subset hc)

theorem lowerAscii_eq_self (hs : hasCapital s = false) : lowerAscii s = s := by
  have hmap : s.toList.map Char.toLower = s.toList.map id :=
    List.map_congr_left fun c hc => toLower_eq_self (hasCapital_eq_false_iff.mp hs c hc)
  rw [lowerAscii, hmap, List.map_id, String.ofList_toList]

theorem utf8ByteSize_ofList_cons (c : Char) (cs : List Char) :
    (String.ofList (c :: cs)).utf8ByteSize = c.utf8Size + (String.ofList cs).utf8ByteSize := by
  have hcons : String.ofList (c :: cs) = String.singleton c ++ String.ofList cs := by
    rw [← List.singleton_append, String.ofList_append]
    rfl
  rw [hcons, String.utf8ByteSize_append, String.utf8ByteSize_singleton]

theorem utf8ByteSize_lowerAscii (s : String) : (lowerAscii s).utf8ByteSize = s.utf8ByteSize := by
  have hchars : ∀ cs : List Char, (String.ofList (cs.map Char.toLower)).utf8ByteSize =
      (String.ofList cs).utf8ByteSize := by
    intro cs
    induction cs with
    | nil => rfl
    | cons c cs ih =>
      rw [List.map_cons, utf8ByteSize_ofList_cons, utf8ByteSize_ofList_cons, ih, utf8Size_toLower]
  rw [lowerAscii, hchars, String.ofList_toList]

end PocketTerminal.Text
