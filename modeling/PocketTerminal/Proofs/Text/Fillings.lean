import PocketTerminal.Text.Template
import Mathlib.Data.List.Basic
import Mathlib.Data.List.Nodup

/-! # Fillings

Filling all holes of a template at once: each hole takes its value, and a value is not read again.
Going through the text pair by pair comes to the same as long as no filling makes a hole, out of a
value and what stands around it, that a later pair fills. -/
namespace PocketTerminal.Text

variable {key key' value : String} {pairs rest : List (String × String)} {c : Char}
  {text filled out out' start tail part : List Char}

def Bare (text : List Char) : Prop := '{' ∉ text ∧ '}' ∉ text

instance (text : List Char) : Decidable (Bare text) := inferInstanceAs (Decidable (_ ∧ _))

/-- A template and what becomes of it when the holes of the listed keys are filled at once. -/
inductive Filled (pairs : List (String × String)) : List Char → List Char → Prop
  | nil : Filled pairs [] []
  | filling {key value : String} {tail out : List Char} : (key, value) ∈ pairs →
      Filled pairs tail out → Filled pairs (hole key ++ tail) (value.toList ++ out)
  | kept {c : Char} {tail out : List Char} : (∀ pair ∈ pairs, ¬ hole pair.1 <+: c :: tail) →
      Filled pairs tail out → Filled pairs (c :: tail) (c :: out)

theorem hole_cons (key : String) : hole key = '{' :: (key.toList ++ ['}']) := by simp [hole]

theorem prefix_hole (key : String) (tail : List Char) :
    hole key <+: '{' :: (key.toList ++ ['}'] ++ tail) :=
  ⟨tail, by rw [hole_cons, List.cons_append]⟩

theorem hole_eq (key : String) (tail : List Char) :
    hole key ++ tail = '{' :: (key.toList ++ '}' :: tail) := by
  simp [hole]

theorem not_hole_of_ne (hc : c ≠ '{') : ¬ hole key <+: c :: tail := by
  rintro ⟨after, hafter⟩
  rw [hole_eq, List.cons.injEq] at hafter
  exact hc hafter.1.symm

/-- A key ends where its hole is closed. -/
theorem takeWhile_key (hkey : Bare key.toList) (tail : List Char) :
    (key.toList ++ '}' :: tail).takeWhile (· != '}') = key.toList := by
  have hbefore : ∀ c ∈ key.toList, (c != '}') = true := by
    intro c hc
    rw [bne_iff_ne]
    rintro rfl
    exact hkey.2 hc
  rw [List.takeWhile_append_of_pos hbefore]
  simp

theorem hole_append_inj (hkey : Bare key.toList) (hkey' : Bare key'.toList)
    (h : hole key ++ text = hole key' ++ tail) : key = key' ∧ text = tail := by
  rw [hole_eq, hole_eq, List.cons.injEq] at h
  have hchars : key.toList = key'.toList := by
    rw [← takeWhile_key hkey text, h.2, takeWhile_key hkey' tail]
  have htails := List.append_cancel_left (hchars ▸ h.2)
  exact ⟨String.toList_injective hchars, (List.cons.inj htails).2⟩

/-- No hole begins behind the brace that opens one. -/
theorem not_hole_behind (hkey : Bare key.toList) (hpart : part <:+ key.toList ++ ['}'])
    (hsome : part ≠ []) : ¬ hole key' <+: part ++ tail := by
  obtain ⟨c, more, rfl⟩ := List.exists_cons_of_ne_nil hsome
  refine not_hole_of_ne ?_
  rintro rfl
  rcases List.mem_append.mp (hpart.subset List.mem_cons_self) with hmem | hmem
  · exact hkey.1 hmem
  · exact absurd (List.mem_singleton.mp hmem) (by decide)

/-- No hole begins inside another one. -/
theorem not_hole_within (hkey : Bare key.toList) (hkey' : Bare key'.toList) (hne : key ≠ key')
    (hpart : part <:+ hole key) (hsome : part ≠ []) : ¬ hole key' <+: part ++ tail := by
  rw [hole_cons, List.suffix_cons_iff, ← hole_cons] at hpart
  rcases hpart with rfl | hpart
  · rintro ⟨after, hafter⟩
    exact hne (hole_append_inj hkey' hkey hafter).1.symm
  · exact not_hole_behind hkey hpart hsome

def holes (key : String) (text : List Char) : Nat := text.tails.countP (hole key).isPrefixOf

theorem holes_nil (key : String) : holes key [] = 0 := rfl

theorem holes_cons (key : String) (c : Char) (tail : List Char) :
    holes key (c :: tail) = holes key tail + if hole key <+: c :: tail then 1 else 0 := by
  have htails : (c :: tail).tails = (c :: tail) :: tail.tails := rfl
  rw [holes, htails, List.countP_cons]
  simp only [List.isPrefixOf_iff_prefix]
  rfl

theorem holes_le_append (key : String) (start tail : List Char) :
    holes key tail ≤ holes key (start ++ tail) := by
  induction start with
  | nil => exact Nat.le_refl _
  | cons c start ih =>
    rw [List.cons_append, holes_cons]
    exact Nat.le_trans ih (Nat.le_add_right _ _)

theorem holes_append_of_none
    (hnone : ∀ part, part <:+ start → part ≠ [] → ¬ hole key <+: part ++ tail) :
    holes key (start ++ tail) = holes key tail := by
  induction start with
  | nil => rfl
  | cons c start ih =>
    have hfirst := hnone _ (List.suffix_refl _) (List.cons_ne_nil _ _)
    rw [List.cons_append] at hfirst ⊢
    rw [holes_cons, if_neg hfirst, Nat.add_zero]
    exact ih fun part hpart => hnone part (hpart.trans (List.suffix_cons _ _))

/-- No hole begins in a stretch that adds none. -/
theorem none_of_holes_append (hsame : holes key (c :: start ++ tail) = holes key tail) :
    ¬ hole key <+: c :: (start ++ tail) ∧ holes key (start ++ tail) = holes key tail := by
  have hle := holes_le_append key start tail
  rw [List.cons_append, holes_cons] at hsame
  split at hsame
  · omega
  · next hnone => exact ⟨hnone, hsame⟩

theorem holes_hole_of_ne (hkey : Bare key.toList) (hkey' : Bare key'.toList) (hne : key ≠ key') :
    holes key (hole key' ++ tail) = holes key tail :=
  holes_append_of_none fun _ hpart hsome => not_hole_within hkey' hkey hne.symm hpart hsome

theorem holes_hole (hkey : Bare key.toList) : holes key (hole key ++ tail) = holes key tail + 1 := by
  have hbehind : holes key (key.toList ++ ['}'] ++ tail) = holes key tail :=
    holes_append_of_none fun _ hpart hsome => not_hole_behind hkey hpart hsome
  rw [hole_cons, List.cons_append, holes_cons, hbehind, if_pos (prefix_hole key tail)]

theorem holes_hole_congr (hkey : Bare key.toList) (hkey' : Bare key'.toList) :
    holes key (hole key' ++ text) = holes key (hole key' ++ tail) ↔
      holes key text = holes key tail := by
  by_cases heq : key = key'
  · subst heq
    rw [holes_hole hkey, holes_hole hkey, Nat.add_right_cancel_iff]
  · rw [holes_hole_of_ne hkey hkey' heq, holes_hole_of_ne hkey hkey' heq]

/-- A text that lost no holes and gained none with what was put in front of it. -/
theorem holes_of_append (hkept : holes key tail ≤ holes key text)
    (hsame : holes key (start ++ text) = holes key tail) :
    holes key text = holes key tail ∧ holes key (start ++ text) = holes key text := by
  have hadded := holes_le_append key start text
  omega

theorem Filled.of_nil (h : Filled pairs [] out) : out = [] := by
  generalize ht : ([] : List Char) = text at h
  cases h with
  | nil => rfl
  | filling =>
    rw [hole_eq] at ht
    cases ht
  | kept => cases ht

theorem Filled.of_hole (hkeys : (pairs.map Prod.fst).Nodup)
    (hbare : ∀ pair ∈ pairs, Bare pair.1.toList) (hmem : (key, value) ∈ pairs)
    (h : Filled pairs (hole key ++ tail) out) :
    ∃ out', out = value.toList ++ out' ∧ Filled pairs tail out' := by
  generalize ht : hole key ++ tail = text at h
  cases h with
  | nil =>
    rw [hole_eq] at ht
    cases ht
  | filling hmem' hrest =>
    obtain ⟨rfl, rfl⟩ := hole_append_inj (hbare _ hmem) (hbare _ hmem') ht
    obtain rfl := (Prod.mk.inj (List.inj_on_of_nodup_map hkeys hmem hmem' rfl)).2
    exact ⟨_, rfl, hrest⟩
  | kept hnone => exact absurd ⟨tail, ht⟩ (hnone _ hmem)

theorem Filled.of_text (hnone : ∀ pair ∈ pairs, ¬ hole pair.1 <+: c :: tail)
    (h : Filled pairs (c :: tail) out) : ∃ out', out = c :: out' ∧ Filled pairs tail out' := by
  generalize ht : c :: tail = text at h
  cases h with
  | nil => cases ht
  | filling hmem => exact absurd ⟨_, ht.symm⟩ (hnone _ hmem)
  | kept _ hrest =>
    cases ht
    exact ⟨_, rfl, hrest⟩

/-- A stretch that adds no holes stays as it is. -/
theorem Filled.of_append
    (hsame : ∀ pair ∈ pairs, holes pair.1 (start ++ tail) = holes pair.1 tail)
    (h : Filled pairs (start ++ tail) out) : ∃ out', out = start ++ out' ∧ Filled pairs tail out' := by
  induction start generalizing out with
  | nil => exact ⟨out, rfl, h⟩
  | cons c start ih =>
    have hnone := fun pair hmem => none_of_holes_append (hsame pair hmem)
    obtain ⟨out', rfl, hrest⟩ := h.of_text fun pair hmem => (hnone pair hmem).1
    obtain ⟨last, rfl, hlast⟩ := ih (fun pair hmem => (hnone pair hmem).2) hrest
    exact ⟨last, rfl, hlast⟩

theorem filled_nil (text : List Char) : Filled [] text text := by
  induction text with
  | nil => exact .nil
  | cons c tail ih => exact .kept (List.forall_mem_nil _) ih

theorem Filled.congr (h : Filled pairs text out) (hsame : ∀ pair, pair ∈ pairs ↔ pair ∈ rest) :
    Filled rest text out := by
  induction h with
  | nil => exact .nil
  | filling hmem _ ih => exact .filling ((hsame _).mp hmem) ih
  | kept hnone _ ih => exact .kept (fun pair hmem => hnone pair ((hsame pair).mpr hmem)) ih

/-- With distinct keys there is one way to fill a template. -/
theorem Filled.unique (hkeys : (pairs.map Prod.fst).Nodup)
    (hbare : ∀ pair ∈ pairs, Bare pair.1.toList) (h : Filled pairs text out)
    (h' : Filled pairs text out') : out = out' := by
  induction h generalizing out' with
  | nil => exact h'.of_nil.symm
  | filling hmem _ ih =>
    obtain ⟨out', rfl, hrest⟩ := h'.of_hole hkeys hbare hmem
    rw [ih hrest]
  | kept hnone _ ih =>
    obtain ⟨out', rfl, hrest⟩ := h'.of_text hnone
    rw [ih hrest]

theorem Filled.of_hole_self (hkey : Bare key.toList)
    (h : Filled [(key, value)] (hole key ++ tail) filled) :
    ∃ filled', filled = value.toList ++ filled' ∧ Filled [(key, value)] tail filled' :=
  h.of_hole (List.nodup_singleton _) (List.forall_mem_singleton.mpr hkey) List.mem_cons_self

theorem Filled.of_hole_other (hkey : Bare key.toList) (hkey' : Bare key'.toList) (hne : key' ≠ key)
    (h : Filled [(key, value)] (hole key' ++ tail) filled) :
    ∃ filled', filled = hole key' ++ filled' ∧ Filled [(key, value)] tail filled' :=
  h.of_append (List.forall_mem_singleton.mpr (holes_hole_of_ne hkey hkey' hne.symm))

/-- Filling the holes of one key leaves the holes of all others. -/
theorem Filled.holes_le (hkey : Bare key.toList) (hkey' : Bare key'.toList) (hne : key' ≠ key)
    (h : Filled [(key, value)] text filled) : holes key' text ≤ holes key' filled := by
  induction h with
  | nil => exact Nat.le_refl _
  | filling hmem _ ih =>
    obtain ⟨rfl, rfl⟩ := Prod.mk.inj (List.mem_singleton.mp hmem)
    rw [holes_hole_of_ne hkey' hkey hne]
    exact Nat.le_trans ih (holes_le_append _ _ _)
  | @kept c tail out hnone hrest ih =>
    rw [holes_cons, holes_cons]
    by_cases hprefix : hole key' <+: c :: tail
    · have hkept : hole key' <+: c :: out := by
        obtain ⟨after, hafter⟩ := hprefix
        have hfilled : Filled [(key, value)] (hole key' ++ after) (c :: out) := by
          rw [hafter]
          exact .kept hnone hrest
        obtain ⟨out', hout, -⟩ := hfilled.of_hole_other hkey hkey' hne
        exact ⟨out', hout.symm⟩
      rw [if_pos hprefix, if_pos hkept]
      exact Nat.add_le_add_right ih 1
    · rw [if_neg hprefix]
      exact Nat.le_trans ih (Nat.le_add_right _ _)

/-- Every template can be filled. -/
theorem exists_filled (pairs : List (String × String)) (text : List Char) :
    ∃ out, Filled pairs text out := by
  induction hlength : text.length using Nat.strongRecOn generalizing text with
  | _ length ih =>
    subst hlength
    cases text with
    | nil => exact ⟨[], .nil⟩
    | cons c tail =>
      by_cases hsome : ∃ pair ∈ pairs, hole pair.1 <+: c :: tail
      · obtain ⟨pair, hmem, after, hafter⟩ := hsome
        have hshorter : after.length < (c :: tail).length := by
          rw [← hafter, List.length_append]
          simp [hole]
        obtain ⟨out, hout⟩ := ih _ hshorter after rfl
        exact ⟨pair.2.toList ++ out, hafter ▸ .filling hmem hout⟩
      · obtain ⟨out, hout⟩ := ih _ (Nat.lt_succ_self _) tail rfl
        exact ⟨c :: out, .kept (fun pair hmem hprefix => hsome ⟨pair, hmem, hprefix⟩) hout⟩

theorem isSome_afterStart : (afterStart start text).isSome = true ↔ start <+: text := by
  induction start generalizing text with
  | nil => simp [afterStart]
  | cons p start ih =>
    cases text with
    | nil => simp [afterStart]
    | cons c text =>
      rw [afterStart, List.cons_prefix_cons, ← ih]
      split <;> simp_all

theorem replaceFrom_skip (pattern value start tail : List Char) :
    replaceFrom pattern value start.length (start ++ tail) = replaceFrom pattern value 0 tail := by
  induction start with
  | nil => rfl
  | cons c start ih => exact ih

theorem replaceFrom_hole (key : String) (value tail : List Char) :
    replaceFrom (hole key) value 0 (hole key ++ tail) =
      value ++ replaceFrom (hole key) value 0 tail := by
  have hfound := isSome_afterStart.mpr (prefix_hole key tail)
  have hlength : (hole key).length - 1 = (key.toList ++ ['}']).length := by simp [hole]
  calc replaceFrom (hole key) value 0 (hole key ++ tail)
      = replaceFrom (hole key) value 0 ('{' :: (key.toList ++ ['}'] ++ tail)) := by
        rw [hole_eq, List.append_assoc, List.singleton_append]
    _ = value ++ replaceFrom (hole key) value 0 tail := by
        rw [replaceFrom, if_pos hfound, hlength, replaceFrom_skip]

theorem replaceFrom_text (value : List Char) (hnone : ¬ hole key <+: c :: tail) :
    replaceFrom (hole key) value 0 (c :: tail) = c :: replaceFrom (hole key) value 0 tail := by
  rw [replaceFrom, if_neg (mt isSome_afterStart.mp hnone)]

theorem Filled.replaceFrom_eq (h : Filled [(key, value)] text out) :
    replaceFrom (hole key) value.toList 0 text = out := by
  induction h with
  | nil => rfl
  | filling hmem _ ih =>
    obtain ⟨rfl, rfl⟩ := Prod.mk.inj (List.mem_singleton.mp hmem)
    rw [replaceFrom_hole, ih]
  | kept hnone _ ih => rw [replaceFrom_text _ (hnone _ List.mem_cons_self), ih]

theorem filled_replaceFrom (key value : String) (text : List Char) :
    Filled [(key, value)] text (replaceFrom (hole key) value.toList 0 text) := by
  obtain ⟨out, hout⟩ := exists_filled [(key, value)] text
  rwa [hout.replaceFrom_eq]

theorem Filled.length_eq (hkey : Bare key.toList) (h : Filled [(key, value)] text out) :
    out.length + holes key text * (hole key).length =
      text.length + holes key text * value.toList.length := by
  induction h with
  | nil => rw [holes_nil, Nat.zero_mul, Nat.zero_mul]
  | filling hmem _ ih =>
    obtain ⟨rfl, rfl⟩ := Prod.mk.inj (List.mem_singleton.mp hmem)
    rw [holes_hole hkey, Nat.add_one_mul, Nat.add_one_mul, List.length_append, List.length_append]
    omega
  | kept hnone _ ih =>
    rw [holes_cons, if_neg (hnone _ List.mem_cons_self), Nat.add_zero, List.length_cons,
      List.length_cons]
    omega

/-- Two values of one length that fill a template alike are one, if anything is filled. -/
theorem Filled.value_unique_of_length {other : String} (hkey : Bare key.toList)
    (hsome : 0 < holes key text) (hlength : value.toList.length = other.toList.length)
    (h : Filled [(key, value)] text out) (h' : Filled [(key, other)] text out) : value = other := by
  induction h with
  | nil =>
    rw [holes_nil] at hsome
    omega
  | filling hmem _ _ =>
    obtain ⟨rfl, rfl⟩ := Prod.mk.inj (List.mem_singleton.mp hmem)
    obtain ⟨out', heq, -⟩ := h'.of_hole_self hkey
    exact String.toList_inj.mp (List.append_inj_left heq hlength)
  | @kept c tail out hnone _ ih =>
    have hkept : ¬ hole key <+: c :: tail := hnone _ List.mem_cons_self
    obtain ⟨out', heq, htail⟩ := h'.of_text (List.forall_mem_singleton.mpr hkept)
    rw [holes_cons, if_neg hkept, Nat.add_zero] at hsome
    cases heq
    exact ih hsome htail

/-- A text with a hole, once it is filled, tells what it was filled with. -/
theorem fill_injective {template other : String} (hkey : Bare key.toList)
    (hsome : 0 < holes key template.toList)
    (h : fill template [(key, value)] = fill template [(key, other)]) : value = other := by
  have hvalue := filled_replaceFrom key value template.toList
  have hother := filled_replaceFrom key other template.toList
  have hsame : replaceFrom (hole key) value.toList 0 template.toList =
      replaceFrom (hole key) other.toList 0 template.toList := String.ofList_injective h
  rw [← hsame] at hother
  have hlength : value.toList.length = other.toList.length := by
    apply Nat.eq_of_mul_eq_mul_left hsome
    have hfirst := hvalue.length_eq hkey
    have hsecond := hother.length_eq hkey
    omega
  exact hvalue.value_unique_of_length hkey hsome hlength hother

/-- Filling one key first and the others in its result comes to filling all at once, if the
first filling makes no hole of the others. -/
theorem Filled.after (hkeys : (((key, value) :: rest).map Prod.fst).Nodup)
    (hbare : ∀ pair ∈ (key, value) :: rest, Bare pair.1.toList)
    (h : Filled ((key, value) :: rest) text out) (hfirst : Filled [(key, value)] text filled)
    (hsame : ∀ pair ∈ rest, holes pair.1 filled = holes pair.1 text)
    (hrest : Filled rest filled out') : out' = out := by
  have hkey := hbare _ List.mem_cons_self
  have hbareRest : ∀ pair ∈ rest, Bare pair.1.toList := fun pair hmem =>
    hbare pair (List.mem_cons_of_mem _ hmem)
  have hne : ∀ pair ∈ rest, pair.1 ≠ key := by
    rintro pair hmem rfl
    exact (List.nodup_cons.mp hkeys).1 (List.mem_map.mpr ⟨pair, hmem, rfl⟩)
  -- along the filling at once: what it does next, the two fillings one after the other do as well
  induction h generalizing filled out' with
  | nil =>
    obtain rfl := hfirst.of_nil
    exact hrest.of_nil
  | @filling key' value' tail out hmem _ ih =>
    rcases List.mem_cons.mp hmem with heq | hmem
    · obtain ⟨rfl, rfl⟩ := Prod.mk.inj heq
      obtain ⟨filled', rfl, htail⟩ := hfirst.of_hole_self hkey
      -- no hole begins in the value, also not one that ends behind it
      have hadds : ∀ pair ∈ rest, holes pair.1 filled' = holes pair.1 tail ∧
          holes pair.1 (_ ++ filled') = holes pair.1 filled' := fun pair hmem =>
        holes_of_append (htail.holes_le hkey (hbareRest pair hmem) (hne pair hmem))
          ((hsame pair hmem).trans (holes_hole_of_ne (hbareRest pair hmem) hkey (hne pair hmem)))
      obtain ⟨out', rfl, hrest'⟩ := hrest.of_append fun pair hmem => (hadds pair hmem).2
      rw [ih htail (fun pair hmem => (hadds pair hmem).1) hrest']
    · obtain ⟨filled', rfl, htail⟩ :=
        hfirst.of_hole_other hkey (hbareRest _ hmem) (hne _ hmem)
      have hsame' : ∀ pair ∈ rest, holes pair.1 filled' = holes pair.1 tail := fun pair hmem' =>
        (holes_hole_congr (hbareRest pair hmem') (hbareRest _ hmem)).mp (hsame pair hmem')
      obtain ⟨out', rfl, hrest'⟩ := hrest.of_hole (List.nodup_cons.mp hkeys).2 hbareRest hmem
      rw [ih htail hsame' hrest']
  | @kept c tail out hnone _ ih =>
    obtain ⟨hnoneFirst, hnoneRest⟩ := List.forall_mem_cons.mp hnone
    obtain ⟨filled', rfl, htail⟩ := hfirst.of_text (List.forall_mem_singleton.mpr hnoneFirst)
    have hadds : ∀ pair ∈ rest, holes pair.1 filled' = holes pair.1 tail ∧
        holes pair.1 ([c] ++ filled') = holes pair.1 filled' := fun pair hmem =>
      holes_of_append (htail.holes_le hkey (hbareRest pair hmem) (hne pair hmem))
        ((hsame pair hmem).trans (by rw [holes_cons, if_neg (hnoneRest pair hmem), Nat.add_zero]))
    obtain ⟨out', rfl, hrest'⟩ := hrest.of_append fun pair hmem => (hadds pair hmem).2
    rw [ih htail (fun pair hmem => (hadds pair hmem).1) hrest']
    rfl

/-- No filling of a key makes a hole that a later pair fills, out of the value or of the value
and what stands around it. -/
def Undisturbed : List (String × String) → List Char → Prop
  | [], _ => True
  | (key, value) :: rest, text =>
    let filled := replaceFrom (hole key) value.toList 0 text
    (∀ pair ∈ rest, holes pair.1 filled = holes pair.1 text) ∧ Undisturbed rest filled

instance decidableUndisturbed : ∀ pairs text, Decidable (Undisturbed pairs text)
  | [], _ => .isTrue trivial
  | (key, value) :: rest, text =>
    have := decidableUndisturbed rest (replaceFrom (hole key) value.toList 0 text)
    inferInstanceAs (Decidable (_ ∧ _))

theorem Undisturbed.filled_foldl (hkeys : (pairs.map Prod.fst).Nodup)
    (hbare : ∀ pair ∈ pairs, Bare pair.1.toList) (h : Undisturbed pairs text) :
    Filled pairs text
      (pairs.foldl (fun text pair => replaceFrom (hole pair.1) pair.2.toList 0 text) text) := by
  induction pairs generalizing text with
  | nil => exact filled_nil text
  | cons pair rest ih =>
    obtain ⟨hsame, hlater⟩ := h
    obtain ⟨out, hout⟩ := exists_filled (pair :: rest) text
    have hrest := ih (List.nodup_cons.mp hkeys).2
      (fun other hmem => hbare other (List.mem_cons_of_mem _ hmem)) hlater
    have hfirst := filled_replaceFrom pair.1 pair.2 text
    rwa [List.foldl_cons, hout.after hkeys hbare hfirst hsame hrest]

theorem Undisturbed.filled_fill {template : String} (hkeys : (pairs.map Prod.fst).Nodup)
    (hbare : ∀ pair ∈ pairs, Bare pair.1.toList) (h : Undisturbed pairs template.toList) :
    Filled pairs template.toList (fill template pairs).toList := by
  rw [fill, String.toList_ofList]
  exact h.filled_foldl hkeys hbare

inductive Plain : List Char → Prop
  | nil : Plain []
  | char {c : Char} {tail : List Char} : c ≠ '{' → c ≠ '}' → Plain tail → Plain (c :: tail)
  | hole {key : String} {tail : List Char} : Bare key.toList → Plain tail →
      Plain (hole key ++ tail)

theorem Plain.of_bare (h : Bare text) : Plain text := by
  induction text with
  | nil => exact .nil
  | cons c tail ih =>
    obtain ⟨hopen, hclose⟩ := h
    rw [List.mem_cons, not_or] at hopen hclose
    exact .char (Ne.symm hopen.1) (Ne.symm hclose.1) (ih ⟨hopen.2, hclose.2⟩)

theorem Plain.append (h : Plain start) (htail : Plain tail) : Plain (start ++ tail) := by
  induction h with
  | nil => exact htail
  | char hopen hclose _ ih => exact .char hopen hclose ih
  | hole hkey _ ih =>
    rw [List.append_assoc]
    exact .hole hkey ih

/-- Two plain texts side by side make no hole across their border. -/
theorem Plain.holes_append (hkey : Bare key.toList) (h : Plain start) :
    holes key (start ++ tail) = holes key start + holes key tail := by
  induction h with
  | nil => rw [List.nil_append, holes_nil, Nat.zero_add]
  | char hopen _ _ ih =>
    rw [List.cons_append, holes_cons, holes_cons, if_neg (not_hole_of_ne hopen),
      if_neg (not_hole_of_ne hopen), ih, Nat.add_zero, Nat.add_zero]
  | @hole key' _ hkey' _ ih =>
    rw [List.append_assoc]
    by_cases heq : key = key'
    · subst heq
      rw [holes_hole hkey, holes_hole hkey, ih, Nat.add_right_comm]
    · rw [holes_hole_of_ne hkey hkey' heq, holes_hole_of_ne hkey hkey' heq, ih]

theorem Plain.of_filled (hkey : Bare key.toList) (h : Plain text) (hvalue : Plain value.toList)
    (hfilled : Filled [(key, value)] text filled) : Plain filled := by
  induction h generalizing filled with
  | nil =>
    rw [hfilled.of_nil]
    exact .nil
  | char hopen hclose _ ih =>
    obtain ⟨filled', rfl, htail⟩ :=
      hfilled.of_text (List.forall_mem_singleton.mpr (not_hole_of_ne hopen))
    exact .char hopen hclose (ih htail)
  | @hole key' _ hkey' _ ih =>
    by_cases heq : key' = key
    · subst heq
      obtain ⟨filled', rfl, htail⟩ := hfilled.of_hole_self hkey
      exact hvalue.append (ih htail)
    · obtain ⟨filled', rfl, htail⟩ := hfilled.of_hole_other hkey hkey' heq
      exact .hole hkey' (ih htail)

theorem Plain.holes_filled (hkey : Bare key.toList) (hother : Bare key'.toList) (hne : key' ≠ key)
    (h : Plain text) (hvalue : Plain value.toList) (hnone : holes key' value.toList = 0)
    (hfilled : Filled [(key, value)] text filled) : holes key' filled = holes key' text := by
  induction h generalizing filled with
  | nil => rw [hfilled.of_nil]
  | char hopen hclose _ ih =>
    obtain ⟨filled', rfl, htail⟩ :=
      hfilled.of_text (List.forall_mem_singleton.mpr (not_hole_of_ne hopen))
    rw [holes_cons, holes_cons, if_neg (not_hole_of_ne hopen), if_neg (not_hole_of_ne hopen),
      ih htail]
  | @hole shown _ hshown _ ih =>
    by_cases heq : shown = key
    · subst heq
      obtain ⟨filled', rfl, htail⟩ := hfilled.of_hole_self hkey
      rw [hvalue.holes_append hother, hnone, Nat.zero_add, holes_hole_of_ne hother hkey hne,
        ih htail]
    · obtain ⟨filled', rfl, htail⟩ := hfilled.of_hole_other hkey hshown heq
      exact (holes_hole_congr hother hshown).mpr (ih htail)

/-- Braces stand only around keys, and no value has a hole of another listed key. -/
def Harmless (pairs : List (String × String)) (text : List Char) : Prop :=
  Plain text ∧ ∀ pair ∈ pairs, Plain pair.2.toList ∧
    ∀ other ∈ pairs, other.1 ≠ pair.1 → holes other.1 pair.2.toList = 0

theorem Harmless.undisturbed (hkeys : (pairs.map Prod.fst).Nodup)
    (hbare : ∀ pair ∈ pairs, Bare pair.1.toList) (h : Harmless pairs text) :
    Undisturbed pairs text := by
  induction pairs generalizing text with
  | nil => trivial
  | cons pair rest ih =>
    obtain ⟨htext, hvalues⟩ := h
    obtain ⟨hvalue, hnone⟩ := hvalues pair List.mem_cons_self
    have hkey := hbare pair List.mem_cons_self
    have hfilled := filled_replaceFrom pair.1 pair.2 text
    refine ⟨fun other hmem => ?_, ?_⟩
    · have hne : other.1 ≠ pair.1 := fun heq =>
        (List.nodup_cons.mp hkeys).1 (List.mem_map.mpr ⟨other, hmem, heq⟩)
      have hlisted := List.mem_cons_of_mem pair hmem
      exact htext.holes_filled hkey (hbare other hlisted) hne hvalue (hnone other hlisted hne)
        hfilled
    · refine ih (List.nodup_cons.mp hkeys).2
        (fun other hmem => hbare other (List.mem_cons_of_mem _ hmem))
        ⟨htext.of_filled hkey hvalue hfilled, fun other hmem => ?_⟩
      obtain ⟨hother, hothers⟩ := hvalues other (List.mem_cons_of_mem _ hmem)
      exact ⟨hother, fun third hthird => hothers third (List.mem_cons_of_mem _ hthird)⟩

theorem Harmless.perm {order : List (String × String)} (h : Harmless pairs text)
    (hperm : order.Perm pairs) : Harmless order text := by
  refine ⟨h.1, fun pair hmem => ?_⟩
  obtain ⟨hvalue, hnone⟩ := h.2 pair (hperm.mem_iff.mp hmem)
  exact ⟨hvalue, fun other hother => hnone other (hperm.mem_iff.mp hother)⟩

theorem undisturbed_of_length_le (hshort : pairs.length ≤ 1) : Undisturbed pairs text := by
  match pairs, hshort with
  | [], _ => trivial
  | [_], _ => exact ⟨List.forall_mem_nil _, trivial⟩

/-- Fillings that do not disturb one another come to filling all holes at once, in whatever order
they are made. One key alone never disturbs, nor do several in a template whose braces stand around
keys, with values that have no holes for one another. -/
theorem fill_simultaneous (template : String) (pairs : List (String × String))
    (hkeys : (pairs.map Prod.fst).Nodup) (hbare : ∀ pair ∈ pairs, Bare pair.1.toList) :
    (Undisturbed pairs template.toList →
      (∀ out, Filled pairs template.toList out.toList ↔ out = fill template pairs) ∧
      ∀ order, order.Perm pairs → Undisturbed order template.toList →
        fill template order = fill template pairs) ∧
    (pairs.length ≤ 1 ∨ Harmless pairs template.toList →
      ∀ order, order.Perm pairs → Undisturbed order template.toList) := by
  have hlisted : ∀ order : List (String × String), order.Perm pairs →
      (order.map Prod.fst).Nodup ∧ ∀ pair ∈ order, Bare pair.1.toList := fun order hperm =>
    ⟨(hperm.map Prod.fst).nodup_iff.mpr hkeys, fun pair hmem => hbare pair (hperm.mem_iff.mp hmem)⟩
  have hfilled : ∀ order : List (String × String), order.Perm pairs →
      Undisturbed order template.toList →
      Filled pairs template.toList (fill template order).toList := by
    intro order hperm hcalm
    obtain ⟨hkeys', hbare'⟩ := hlisted order hperm
    exact (hcalm.filled_fill hkeys' hbare').congr fun _ => hperm.mem_iff
  have hone : ∀ out out' : String, Filled pairs template.toList out.toList →
      Filled pairs template.toList out'.toList → out = out' := fun out out' h h' =>
    String.toList_injective (h.unique hkeys hbare h')
  refine ⟨fun hcalm => ⟨fun out => ⟨fun h => ?_, ?_⟩, fun order hperm hcalm' => ?_⟩, ?_⟩
  · exact hone _ _ h (hfilled pairs (.refl _) hcalm)
  · rintro rfl
    exact hfilled pairs (.refl _) hcalm
  · exact hone _ _ (hfilled order hperm hcalm') (hfilled pairs (.refl _) hcalm)
  · intro hgood order hperm
    obtain ⟨hkeys', hbare'⟩ := hlisted order hperm
    rcases hgood with hshort | hgood
    · exact undisturbed_of_length_le (hperm.length_eq ▸ hshort)
    · exact (hgood.perm hperm).undisturbed hkeys' hbare'

def moveTemplate : String := "cannot move \x7bsrc\x7d to \x7bdest\x7d"

theorem plain_moveTemplate : Plain moveTemplate.toList := by
  have hparts : moveTemplate.toList =
      "cannot move ".toList ++ (hole "src" ++ (" to ".toList ++ (hole "dest" ++ []))) := by decide
  rw [hparts]
  exact (Plain.of_bare (by decide)).append
    (.hole (by decide) ((Plain.of_bare (by decide)).append (.hole (by decide) .nil)))

/-- Moving a file whose name has braces. -/
theorem fill_simultaneous_move :
    ([("src", "\x7bnote\x7d"), ("dest", "b")].map Prod.fst).Nodup ∧
      (∀ pair ∈ [("src", "\x7bnote\x7d"), ("dest", "b")], Bare pair.1.toList) ∧
      Harmless [("src", "\x7bnote\x7d"), ("dest", "b")] moveTemplate.toList ∧
      Undisturbed [("src", "\x7bnote\x7d"), ("dest", "b")] moveTemplate.toList ∧
      Filled [("src", "\x7bnote\x7d"), ("dest", "b")] moveTemplate.toList
        "cannot move \x7bnote\x7d to b".toList ∧
      fill moveTemplate [("dest", "b"), ("src", "\x7bnote\x7d")] =
        fill moveTemplate [("src", "\x7bnote\x7d"), ("dest", "b")] := by
  have hkeys : ([("src", "\x7bnote\x7d"), ("dest", "b")].map Prod.fst).Nodup := by decide
  have hbare : ∀ pair ∈ [("src", "\x7bnote\x7d"), ("dest", "b")], Bare pair.1.toList := by decide
  have hnote : Plain "\x7bnote\x7d".toList := @Plain.hole "note" [] (by decide) .nil
  have hharmless : Harmless [("src", "\x7bnote\x7d"), ("dest", "b")] moveTemplate.toList := by
    refine ⟨plain_moveTemplate, List.forall_mem_cons.mpr ⟨⟨hnote, by decide⟩, ?_⟩⟩
    exact List.forall_mem_singleton.mpr ⟨.of_bare (by decide), by decide⟩
  obtain ⟨hsimultaneous, horders⟩ := fill_simultaneous moveTemplate _ hkeys hbare
  have hcalm := horders (.inr hharmless)
  obtain ⟨hfilled, horder⟩ := hsimultaneous (hcalm _ (.refl _))
  exact ⟨hkeys, hbare, hharmless, hcalm _ (.refl _), (hfilled _).mpr (by decide),
    horder _ (.swap _ _ _) (hcalm _ (.swap _ _ _))⟩

/-- The name of the file that is moved is read as a hole, if the target is filled in later. -/
theorem fill_reads_value :
    ([("src", "\x7bdest\x7d"), ("dest", "x")].map Prod.fst).Nodup ∧
      (∀ pair ∈ [("src", "\x7bdest\x7d"), ("dest", "x")], Bare pair.1.toList) ∧
      Filled [("src", "\x7bdest\x7d"), ("dest", "x")] moveTemplate.toList
        "cannot move \x7bdest\x7d to x".toList ∧
      fill moveTemplate [("src", "\x7bdest\x7d"), ("dest", "x")] = "cannot move x to x" ∧
      fill moveTemplate [("dest", "x"), ("src", "\x7bdest\x7d")] =
        "cannot move \x7bdest\x7d to x" := by
  have hkeys : ([("src", "\x7bdest\x7d"), ("dest", "x")].map Prod.fst).Nodup := by decide
  have hbare : ∀ pair ∈ [("src", "\x7bdest\x7d"), ("dest", "x")], Bare pair.1.toList := by decide
  have hcalm : Undisturbed [("dest", "x"), ("src", "\x7bdest\x7d")] moveTemplate.toList := by decide
  have hfilled := hcalm.filled_fill (by decide) (by decide)
  have hlast : fill moveTemplate [("dest", "x"), ("src", "\x7bdest\x7d")] =
      "cannot move \x7bdest\x7d to x" := by decide
  rw [hlast] at hfilled
  exact ⟨hkeys, hbare, hfilled.congr fun _ => (List.Perm.swap _ _ _).mem_iff, by decide, hlast⟩

end PocketTerminal.Text
