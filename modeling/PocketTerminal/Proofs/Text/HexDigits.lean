import PocketTerminal.Proofs.Text.Beginnings
import PocketTerminal.Text.Numeral

/-! # Hexadecimal digits

The characters that are read as digits are the sixteen digits in either case, each with its place
among them for a value, and the digits that are written are those in lower case. -/
namespace PocketTerminal.Text

variable {c : Char} {n : Nat} {cs : List Char} {values : List Nat}

def hexDigits : List Char :=
  ['0', '1', '2', '3', '4', '5', '6', '7', '8', '9', 'a', 'b', 'c', 'd', 'e', 'f']

/-- The value of a digit in either case; sixteen for all other characters. -/
def hexRank (c : Char) : Nat := hexDigits.idxOf c.toLower

def IsHexDigit (c : Char) : Prop := c.toLower ∈ hexDigits

instance (c : Char) : Decidable (IsHexDigit c) := inferInstanceAs (Decidable (_ ∈ _))

theorem hexRank_lt_iff : hexRank c < 16 ↔ IsHexDigit c := List.idxOf_lt_length_iff

theorem hexDigit_mem (h : n < 16) : hexDigit n ∈ hexDigits := by
  revert n
  decide

theorem hexRank_hexDigit (h : n < 16) : hexRank (hexDigit n) = n := by
  revert n
  decide

/-- What is true of the sixteen digits, by looking at each of them. -/
theorem forall_mem_hexDigits {p : Char → Prop} [DecidablePred p]
    (h : hexDigits.all (fun c => p c) = true) : ∀ c ∈ hexDigits, p c := by
  intro c hc
  exact of_decide_eq_true (List.all_eq_true.mp h c hc)

theorem hexDigit_hexRank (h : c ∈ hexDigits) : hexDigit (hexRank c) = c :=
  forall_mem_hexDigits (p := fun c => hexDigit (hexRank c) = c) (by decide) c h

theorem isHexDigit_of_mem (h : c ∈ hexDigits) : IsHexDigit c :=
  forall_mem_hexDigits (p := IsHexDigit) (by decide) c h

theorem toNat_lt_of_isHexDigit (h : IsHexDigit c) : c.toNat < 128 := by
  have hdigits := forall_mem_hexDigits (p := fun d => d.toNat < 128) (by decide)
  cases hupper : c.isUpper with
  | false => exact hdigits c (toLower_eq_self hupper ▸ h)
  | true => exact Nat.lt_of_le_of_lt (isUpper_iff.mp hupper).2 (by decide)

/-- What is true of all digits, by looking at the characters of ASCII. -/
theorem forall_isHexDigit {f : Char → Bool}
    (h : ∀ k < 128, IsHexDigit (Char.ofNat k) → f (Char.ofNat k) = true) (hc : IsHexDigit c) :
    f c = true := by
  have hk := h c.toNat (toNat_lt_of_isHexDigit hc)
  rw [Char.ofNat_toNat] at hk
  exact hk hc

theorem hexValue?_eq_none (h : 128 ≤ c.toNat) : hexValue? c = none := by
  have hword : c.val.toNat = c.toNat := rfl
  simp only [hexValue?, Bool.and_eq_true, decide_eq_true_eq, Char.le_def, UInt32.le_iff_toNat_le]
  rw [if_neg, if_neg, if_neg] <;> simp <;> omega

theorem hexValue?_eq (c : Char) :
    hexValue? c = if IsHexDigit c then some (hexRank c) else none := by
  by_cases hsmall : c.toNat < 128
  · have hall : ∀ k < 128, hexValue? (Char.ofNat k) =
        if IsHexDigit (Char.ofNat k) then some (hexRank (Char.ofNat k)) else none := by
      decide +kernel
    exact Char.ofNat_toNat c ▸ hall c.toNat hsmall
  · have hno : ¬IsHexDigit c := fun h => hsmall (toNat_lt_of_isHexDigit h)
    rw [hexValue?_eq_none (Nat.le_of_not_lt hsmall), if_neg hno]

theorem hexValue?_eq_some_iff : hexValue? c = some n ↔ IsHexDigit c ∧ hexRank c = n := by
  rw [hexValue?_eq]
  split <;> simp_all

theorem mapM_hexValue?_eq_some_iff :
    cs.mapM hexValue? = some values ↔ (∀ c ∈ cs, IsHexDigit c) ∧ cs.map hexRank = values := by
  induction cs generalizing values with
  | nil => simp [eq_comm]
  | cons c cs ih =>
    rw [List.mapM_cons, List.forall_mem_cons, List.map_cons]
    constructor
    · intro h
      obtain ⟨value, hvalue, h⟩ := Option.bind_eq_some_iff.mp h
      obtain ⟨rest, hrest, he⟩ := Option.bind_eq_some_iff.mp h
      obtain ⟨hc, rfl⟩ := hexValue?_eq_some_iff.mp hvalue
      obtain ⟨hcs, rfl⟩ := ih.mp hrest
      exact ⟨⟨hc, hcs⟩, Option.some.inj he⟩
    · rintro ⟨⟨hc, hcs⟩, rfl⟩
      rw [hexValue?_eq_some_iff.mpr ⟨hc, rfl⟩, ih.mpr ⟨hcs, rfl⟩]
      rfl

end PocketTerminal.Text
