import PocketTerminal.Text.Pattern
import Mathlib.Algebra.Ring.Nat

/-! # What a library of patterns promises

The text of a pattern spells a row of items, and the pattern is in a text where every item in turn
takes a piece of it. `Documented` is what a search may rely on: an escaped text is a literal, and
a pattern that is not too large means what its items say. The library of the shell keeps this: it
follows places, and a place is kept exactly when some cut of the text leads there. -/
namespace PocketTerminal.Text

def Atom.Takes (fold : Prop) : Atom → Char → Prop
  | exactly p, c => p = c ∨ fold ∧ p.toLower = c.toLower
  | dot, c => c ≠ '\n'

/-- An item takes a piece of a text between what is before and what is behind. -/
inductive Item.Takes (fold : Prop) : Item → List Char → List Char → List Char → Prop
  | once {a : Atom} {before behind : List Char} {c : Char} (hc : a.Takes fold c) :
      Takes fold (.once a) before [c] behind
  | many {a : Atom} {before piece behind : List Char} (hpiece : ∀ c ∈ piece, a.Takes fold c) :
      Takes fold (.many a) before piece behind
  | start {behind : List Char} : Takes fold .start [] [] behind
  | finish {before : List Char} : Takes fold .finish before [] []

inductive Taken (fold : Prop) : List Item → List Char → List Char → List Char → Prop
  | nil {before behind : List Char} : Taken fold [] before [] behind
  | cons {item : Item} {items : List Item} {before piece inside behind : List Char}
      (hpiece : item.Takes fold before piece (inside ++ behind))
      (hrest : Taken fold items (before ++ piece) inside behind) :
      Taken fold (item :: items) before (piece ++ inside) behind

def Pattern.OccursIn (p : Pattern) (text : List Char) : Prop :=
  ∃ before inside behind, text = before ++ inside ++ behind ∧
    Taken (p.fold = true) p.items before inside behind

/-- How an atom is spelled: a backslash is allowed before more characters than need it. -/
inductive Atom.Spelled : Atom → List Char → Prop
  | itself {c : Char} (h : isSpecial c = false) : Spelled (.exactly c) [c]
  | escaped {c : Char} (h : isEscapable c = true) : Spelled (.exactly c) ['\\', c]
  | dot : Spelled .dot ['.']

inductive Spells : List Item → List Char → Prop
  | nil : Spells [] []
  | once {a : Atom} {items : List Item} {text rest : List Char} (ha : a.Spelled text)
      (hrest : Spells items rest) : Spells (.once a :: items) (text ++ rest)
  | many {a : Atom} {items : List Item} {text rest : List Char} (ha : a.Spelled text)
      (hrest : Spells items rest) : Spells (.many a :: items) (text ++ '*' :: rest)
  | start {items : List Item} {rest : List Char} (hrest : Spells items rest) :
      Spells (.start :: items) ('^' :: rest)
  | finish {items : List Item} {rest : List Char} (hrest : Spells items rest) :
      Spells (.finish :: items) ('$' :: rest)

def Pattern.Spelled (p : Pattern) (text : String) : Prop :=
  ∃ body, Spells p.items body ∧ text.toList = (if p.fold then ['(', '?', 'i', ')'] else []) ++ body

def literally (chars : List Char) : List Item := chars.map fun c => .once (.exactly c)

/-- The promises of a library: what it escapes is a literal, what is spelled as a pattern is one
unless it exceeds a limit, and it is found where it occurs. -/
structure PatternLibrary.Documented (lib : PatternLibrary) (Exceeds : String → Prop) : Prop where
  spells_escape : ∀ text, Spells (literally text.toList) (lib.escape text).toList
  compile?_eq_none_iff : ∀ p text, Pattern.Spelled p text →
    (lib.compile? text = none ↔ Exceeds text)
  isMatch_iff : ∀ p text compiled, Pattern.Spelled p text → lib.compile? text = some compiled →
    ∀ other, lib.isMatch compiled other = true ↔ p.OccursIn other.toList

variable {fold : Bool} {a : Atom} {item : Item} {items more : List Item} {places : Places}
  {here carried : Bool} {c : Char} {text rest before piece inside behind chars : List Char}
  {i j k : Nat}

theorem Spells.append (h : Spells items text) (hmore : Spells more rest) :
    Spells (items ++ more) (text ++ rest) := by
  induction h with
  | nil => exact hmore
  | once ha _ ih =>
    rw [List.append_assoc]
    exact .once ha ih
  | many ha _ ih =>
    rw [List.append_assoc]
    exact .many ha ih
  | start _ ih => exact .start ih
  | finish _ ih => exact .finish ih

theorem taken_nil_iff {fold : Prop} : Taken fold [] before inside behind ↔ inside = [] := by
  constructor
  · rintro ⟨⟩
    rfl
  · rintro rfl
    exact .nil

theorem taken_cons_iff {fold : Prop} : Taken fold (item :: items) before inside behind ↔
    ∃ piece rest, inside = piece ++ rest ∧ item.Takes fold before piece (rest ++ behind) ∧
      Taken fold items (before ++ piece) rest behind := by
  constructor
  · rintro ⟨⟩
    next hpiece hrest => exact ⟨_, _, rfl, hpiece, hrest⟩
  · rintro ⟨piece, rest, rfl, hpiece, hrest⟩
    exact .cons hpiece hrest

theorem taken_append_iff {fold : Prop} : Taken fold (items ++ more) before inside behind ↔
    ∃ first rest, inside = first ++ rest ∧ Taken fold items before first (rest ++ behind) ∧
      Taken fold more (before ++ first) rest behind := by
  induction items generalizing before inside with
  | nil =>
    constructor
    · intro hmore
      exact ⟨[], inside, rfl, .nil, by rwa [List.append_nil]⟩
    · rintro ⟨first, rest, rfl, hfirst, hrest⟩
      obtain rfl := taken_nil_iff.mp hfirst
      rwa [List.append_nil] at hrest
  | cons item items ih =>
    rw [List.cons_append, taken_cons_iff]
    constructor
    · rintro ⟨piece, inside, rfl, hpiece, hinside⟩
      obtain ⟨first, rest, rfl, hfirst, hrest⟩ := ih.mp hinside
      rw [List.append_assoc] at hpiece hrest
      exact ⟨piece ++ first, rest, (List.append_assoc ..).symm, .cons hpiece hfirst, hrest⟩
    · rintro ⟨first, rest, rfl, hfirst, hrest⟩
      obtain ⟨piece, inside, rfl, hpiece, hinside⟩ := taken_cons_iff.mp hfirst
      rw [← List.append_assoc] at hpiece hrest
      exact ⟨piece, inside ++ rest, List.append_assoc .., hpiece, ih.mpr ⟨inside, rest, rfl, hinside, hrest⟩⟩

/-- The library of the shell reads a pattern back from its text. -/
theorem readItems_of_spelled (ha : a.Spelled text) :
    Pattern.readItems (text ++ rest) = (Pattern.readItems rest).map (Pattern.withAtom a) := by
  cases ha with
  | @itself c h =>
    have hne (d : Char) (hd : isSpecial d = true) : c ≠ d := by
      rintro rfl
      rw [h] at hd
      cases hd
    rw [List.singleton_append, Pattern.readItems]
    · simp [h]
    · exact fun _ _ hc => absurd hc (hne '\\' rfl)
    · exact hne '.' rfl
    · exact hne '*' rfl
    · exact hne '^' rfl
    · exact hne '$' rfl
  | escaped h => simp [Pattern.readItems, h]
  | dot => rfl

theorem readItems_of_spells (h : Spells items text) :
    Pattern.readItems text = some (false, items) := by
  induction h with
  | nil => rfl
  | once ha _ ih =>
    rw [readItems_of_spelled ha, ih]
    rfl
  | @many a items text rest ha _ ih =>
    have hstar : Pattern.readItems ('*' :: rest) = some (true, items) := by
      rw [Pattern.readItems, ih]
      rfl
    rw [readItems_of_spelled ha, hstar]
    rfl
  | start _ ih =>
    rw [Pattern.readItems, ih]
    rfl
  | finish _ ih =>
    rw [Pattern.readItems, ih]
    rfl

theorem read_of_spelled {p : Pattern} {text : String} (h : p.Spelled text) :
    Pattern.read text.toList = some p := by
  obtain ⟨fold, items⟩ := p
  obtain ⟨body, hbody, htext⟩ := h
  have hitems (fold : Bool) : Pattern.ofItems fold body = some ⟨fold, items⟩ := by
    unfold Pattern.ofItems
    rw [readItems_of_spells hbody]
  rw [htext]
  cases fold with
  | true => exact hitems true
  | false =>
    -- What spells items cannot begin as the flag does.
    have hflag (rest : List Char) : body ≠ '(' :: '?' :: 'i' :: ')' :: rest := by
      rintro rfl
      have hread := readItems_of_spells hbody
      simp [Pattern.readItems, isSpecial] at hread
    simp only [Bool.false_eq_true, if_false, List.nil_append]
    unfold Pattern.read
    split
    · next rest => exact absurd rfl (hflag rest)
    · exact hitems false

theorem takes_iff : a.takes fold c = true ↔ a.Takes (fold = true) c := by
  cases a <;> simp [Atom.takes, Atom.Takes]

def Marked (places : Places) (i : Nat) : Prop := places[i]? = some true

/-- A cut of a text into what is before a marked place, a piece that ends at some place, and what
is behind that. -/
structure Cut (places : Places) (text : List Char) (j : Nat) (before piece behind : List Char) :
    Prop where
  text_eq : text = before ++ piece ++ behind
  marked : Marked places before.length
  length_eq : before.length + piece.length = j

def Led (fold : Prop) (places : Places) (text : List Char) (item : Item) (j : Nat) : Prop :=
  ∃ before piece behind, Cut places text j before piece behind ∧ item.Takes fold before piece behind

theorem marked_cons_zero_iff : Marked (here :: places) 0 ↔ here = true := by simp [Marked]

theorem marked_cons_succ_iff : Marked (here :: places) (i + 1) ↔ Marked places i := by simp [Marked]

theorem length_spreadPlaces (carried : Bool) (h : places.length = text.length + 1) :
    (spreadPlaces fold a carried places text).length = text.length + 1 := by
  induction text generalizing places carried with
  | nil =>
    obtain ⟨here, rfl⟩ := List.length_eq_one_iff.mp h
    rfl
  | cons c text ih =>
    cases places with
    | nil => cases h
    | cons here places => simp [spreadPlaces, ih _ (Nat.succ_inj.mp h)]

theorem length_afterItem (h : places.length = text.length + 1) :
    (afterItem fold text places item).length = text.length + 1 := by
  cases item with
  | once a => simp [afterItem, advancePlaces, h]
  | many a => exact length_spreadPlaces false h
  | start => simp [afterItem, keepPlace, h]
  | finish => simp [afterItem, keepPlace, h]

theorem marked_keepPlace_iff : Marked (keepPlace k places) j ↔ j = k ∧ Marked places j := by
  unfold Marked keepPlace
  rw [List.getElem?_map, List.getElem?_zipIdx]
  cases places[j]? with
  | none => simp
  | some here => simp [and_comm]

theorem marked_advancePlaces_iff : Marked (advancePlaces fold a places text) j ↔
    Led (fold = true) places text (.once a) j := by
  cases j with
  | zero =>
    constructor
    · intro hzero
      cases hzero
    · rintro ⟨before, piece, behind, hcut, hitem⟩
      cases hitem
      cases hcut.length_eq
  | succ j =>
    have hmarked : Marked (advancePlaces fold a places text) (j + 1) ↔
        ∃ c, Marked places j ∧ text[j]? = some c ∧ a.takes fold c = true := by
      simp [Marked, advancePlaces, List.getElem?_zipWith_eq_some]
    rw [hmarked]
    constructor
    · rintro ⟨c, hj, hc, htakes⟩
      obtain ⟨hlt, rfl⟩ := List.getElem?_eq_some_iff.mp hc
      have hlength : (text.take j).length = j := List.length_take_of_le (Nat.le_of_lt hlt)
      refine ⟨text.take j, [text[j]], text.drop (j + 1), ⟨?_, hlength.symm ▸ hj, ?_⟩,
        .once (takes_iff.mp htakes)⟩
      · rw [List.append_assoc, List.singleton_append, List.getElem_cons_drop, List.take_append_drop]
      · rw [hlength, List.length_singleton]
    · rintro ⟨before, piece, behind, hcut, hitem⟩
      cases hitem with
      | @once _ _ _ c hc =>
        obtain rfl := Nat.succ_inj.mp hcut.length_eq
        refine ⟨c, hcut.marked, ?_, takes_iff.mpr hc⟩
        rw [hcut.text_eq]
        simp

def Run (fold : Prop) (a : Atom) (text : List Char) (j : Nat) : Prop :=
  ∃ piece behind, text = piece ++ behind ∧ piece.length = j ∧ ∀ c ∈ piece, a.Takes fold c

theorem run_zero {fold : Prop} : Run fold a text 0 :=
  ⟨[], text, rfl, rfl, List.forall_mem_nil _⟩

theorem not_run_nil_succ {fold : Prop} : ¬ Run fold a [] (j + 1) := by
  rintro ⟨piece, behind, htext, hlength, -⟩
  obtain ⟨rfl, -⟩ := List.nil_eq_append_iff.mp htext
  cases hlength

theorem run_cons_succ_iff {fold : Prop} :
    Run fold a (c :: text) (j + 1) ↔ a.Takes fold c ∧ Run fold a text j := by
  constructor
  · rintro ⟨piece, behind, htext, hlength, hpiece⟩
    cases piece with
    | nil => cases hlength
    | cons d piece =>
      obtain ⟨rfl, rfl⟩ := List.cons.inj htext
      obtain ⟨hd, hpiece⟩ := List.forall_mem_cons.mp hpiece
      exact ⟨hd, piece, behind, rfl, Nat.succ_inj.mp hlength, hpiece⟩
  · rintro ⟨hc, piece, behind, rfl, hlength, hpiece⟩
    exact ⟨c :: piece, behind, rfl, congrArg Nat.succ hlength, List.forall_mem_cons.mpr ⟨hc, hpiece⟩⟩

theorem led_many_zero_iff {fold : Prop} :
    Led fold places text (.many a) 0 ↔ Marked places 0 := by
  constructor
  · rintro ⟨before, piece, behind, hcut, -⟩
    have hlength := hcut.length_eq
    have hzero : before.length = 0 := by omega
    exact hzero ▸ hcut.marked
  · intro hzero
    exact ⟨[], [], text, ⟨rfl, hzero, rfl⟩, .many (List.forall_mem_nil _)⟩

/-- A run of several characters begins at the first place or at another. -/
theorem led_many_cons_iff {fold : Prop} : Led fold (here :: places) (c :: text) (.many a) (j + 1) ↔
    Led fold places text (.many a) j ∨ here = true ∧ Run fold a (c :: text) (j + 1) := by
  constructor
  · rintro ⟨before, piece, behind, ⟨htext, hmarked, hlength⟩, hitem⟩
    cases hitem with
    | many hpiece =>
      cases before with
      | nil =>
        rw [List.length_nil, Nat.zero_add] at hlength
        exact .inr ⟨marked_cons_zero_iff.mp hmarked, piece, behind, htext, hlength, hpiece⟩
      | cons d before =>
        obtain ⟨-, rfl⟩ := List.cons.inj htext
        refine .inl ⟨before, piece, behind, ⟨rfl, marked_cons_succ_iff.mp hmarked, ?_⟩, .many hpiece⟩
        rw [List.length_cons] at hlength
        omega
  · rintro (⟨before, piece, behind, ⟨rfl, hmarked, hlength⟩, hitem⟩ |
      ⟨hhere, piece, behind, htext, hlength, hpiece⟩)
    · cases hitem with
      | many hpiece =>
        refine ⟨c :: before, piece, behind, ⟨rfl, marked_cons_succ_iff.mpr hmarked, ?_⟩, .many hpiece⟩
        rw [List.length_cons]
        omega
    · refine ⟨[], piece, behind, ⟨htext, marked_cons_zero_iff.mpr hhere, ?_⟩, .many hpiece⟩
      rw [List.length_nil, Nat.zero_add, hlength]

/-- Marks spread as far as the atom takes what is on the way, from the place before the text too. -/
theorem marked_spreadPlaces_iff (h : places.length = text.length + 1) :
    Marked (spreadPlaces fold a carried places text) j ↔
      Led (fold = true) places text (.many a) j ∨ carried = true ∧ Run (fold = true) a text j := by
  induction text generalizing places carried j with
  | nil =>
    obtain ⟨here, rfl⟩ := List.length_eq_one_iff.mp h
    cases j with
    | zero => simp [led_many_zero_iff, spreadPlaces, marked_cons_zero_iff, run_zero]
    | succ j =>
      have hled : ¬ Led (fold = true) [here] [] (.many a) (j + 1) := by
        rintro ⟨before, piece, behind, ⟨htext, -, hlength⟩, -⟩
        obtain ⟨hcut, -⟩ := List.nil_eq_append_iff.mp htext
        obtain ⟨rfl, rfl⟩ := List.append_eq_nil_iff.mp hcut
        cases hlength
      simp [hled, not_run_nil_succ, spreadPlaces, Marked]
  | cons c text ih =>
    cases places with
    | nil => cases h
    | cons here places =>
      cases j with
      | zero => simp [led_many_zero_iff, spreadPlaces, marked_cons_zero_iff, run_zero]
      | succ j =>
        rw [led_many_cons_iff, spreadPlaces, marked_cons_succ_iff, or_assoc, run_cons_succ_iff]
        refine (ih (Nat.succ_inj.mp h)).trans (or_congr_right ?_)
        rw [Bool.and_eq_true, Bool.or_eq_true, takes_iff, and_assoc, or_and_right]

theorem marked_afterItem_iff (h : places.length = text.length + 1) :
    Marked (afterItem fold text places item) j ↔ Led (fold = true) places text item j := by
  cases item with
  | once a => exact marked_advancePlaces_iff
  | many a =>
    rw [afterItem, marked_spreadPlaces_iff h]
    simp
  | start =>
    rw [afterItem, marked_keepPlace_iff]
    constructor
    · rintro ⟨rfl, hzero⟩
      exact ⟨[], [], text, ⟨rfl, hzero, rfl⟩, .start⟩
    · rintro ⟨before, piece, behind, hcut, hitem⟩
      cases hitem
      exact ⟨hcut.length_eq.symm, hcut.length_eq ▸ hcut.marked⟩
  | finish =>
    rw [afterItem, marked_keepPlace_iff]
    constructor
    · rintro ⟨rfl, hlast⟩
      exact ⟨text, [], [], ⟨by simp, hlast, rfl⟩, .finish⟩
    · rintro ⟨before, piece, behind, hcut, hitem⟩
      cases hitem
      have htext := hcut.text_eq
      rw [List.append_nil, List.append_nil] at htext
      exact ⟨htext ▸ hcut.length_eq.symm, hcut.length_eq ▸ hcut.marked⟩

/-- A place is kept exactly when the items can be led there from a place that was marked. -/
theorem marked_afterItems_iff (h : places.length = text.length + 1) :
    Marked (afterItems fold text places items) j ↔ ∃ before inside behind,
      Cut places text j before inside behind ∧ Taken (fold = true) items before inside behind := by
  induction items generalizing places with
  | nil =>
    constructor
    · intro hj
      have hlt : j < places.length := (List.getElem?_eq_some_iff.mp hj).1
      have hlength : (text.take j).length = j := List.length_take_of_le (by omega)
      refine ⟨text.take j, [], text.drop j, ⟨?_, hlength.symm ▸ hj, hlength⟩, .nil⟩
      rw [List.append_nil, List.take_append_drop]
    · rintro ⟨before, inside, behind, hcut, htaken⟩
      obtain rfl := taken_nil_iff.mp htaken
      exact hcut.length_eq ▸ hcut.marked
  | cons item items ih =>
    rw [afterItems, List.foldl_cons, ← afterItems, ih (length_afterItem h)]
    constructor
    · rintro ⟨before, inside, behind, ⟨htext, hmarked, hlength⟩, htaken⟩
      obtain ⟨start, piece, rest, hcut, hitem⟩ := (marked_afterItem_iff h).mp hmarked
      -- What is before the other items is the first one's piece and what is before that.
      obtain ⟨rfl, rfl⟩ : before = start ++ piece ∧ inside ++ behind = rest := by
        have hsame := htext.symm.trans hcut.text_eq
        rw [List.append_assoc before] at hsame
        exact List.append_inj hsame (by rw [← hcut.length_eq, List.length_append])
      refine ⟨start, piece ++ inside, behind, ⟨?_, hcut.marked, ?_⟩, .cons hitem htaken⟩
      · rw [htext]
        simp
      · rw [← hlength]
        simp [Nat.add_assoc]
    · rintro ⟨start, inside, behind, ⟨htext, hmarked, hlength⟩, htaken⟩
      obtain ⟨piece, inside, rfl, hitem, htaken⟩ := taken_cons_iff.mp htaken
      have hcut : Cut places text (start ++ piece).length start piece (inside ++ behind) := by
        refine ⟨?_, hmarked, List.length_append.symm⟩
        rw [htext]
        simp
      refine ⟨start ++ piece, inside, behind, ⟨?_, ?_, ?_⟩, htaken⟩
      · rw [htext]
        simp
      · exact (marked_afterItem_iff h).mpr ⟨start, piece, inside ++ behind, hcut, hitem⟩
      · rw [← hlength]
        simp [Nat.add_assoc]

theorem occursIn_iff {p : Pattern} : p.occursIn text = true ↔ p.OccursIn text := by
  have hlength : (List.replicate (text.length + 1) true).length = text.length + 1 :=
    List.length_replicate
  have hany : p.occursIn text = true ↔
      ∃ j, Marked (afterItems p.fold text (List.replicate (text.length + 1) true) p.items) j := by
    unfold Pattern.occursIn Marked
    rw [List.any_eq_true]
    simp only [id, exists_eq_right, List.mem_iff_getElem?]
  rw [hany]
  simp only [marked_afterItems_iff hlength]
  constructor
  · rintro ⟨j, before, inside, behind, hcut, htaken⟩
    exact ⟨before, inside, behind, hcut.text_eq, htaken⟩
  · rintro ⟨before, inside, behind, htext, htaken⟩
    refine ⟨_, before, inside, behind, ⟨htext, ?_, rfl⟩, htaken⟩
    have hlt : before.length < text.length + 1 := by
      rw [htext, List.length_append, List.length_append]
      omega
    exact List.getElem?_replicate_of_lt hlt

/-- Every special character may be escaped. -/
theorem isEscapable_of_isSpecial (h : isSpecial c = true) : isEscapable c = true := by
  unfold isSpecial at h
  rw [List.contains_iff_mem] at h
  simp only [List.mem_cons, List.not_mem_nil, or_false] at h
  rcases h with rfl | rfl | rfl | rfl | rfl | rfl | rfl | rfl | rfl | rfl | rfl | rfl | rfl | rfl <;> rfl

theorem spells_escape (text : String) :
    Spells (literally text.toList) (PatternLibrary.simple.escape text).toList := by
  have hchars (chars : List Char) : Spells (literally chars)
      (chars.flatMap fun c => if isSpecial c then ['\\', c] else [c]) := by
    induction chars with
    | nil => exact .nil
    | cons c chars ih =>
      rw [List.flatMap_cons]
      cases hc : isSpecial c with
      | true => exact .once (.escaped (isEscapable_of_isSpecial hc)) ih
      | false => exact .once (.itself hc) ih
  simp only [PatternLibrary.simple, String.toList_ofList]
  exact hchars text.toList

/-- The library of the shell keeps its promises, with its limit on the length of a pattern. -/
theorem documented_simple :
    PatternLibrary.simple.Documented fun text => Pattern.limit < text.length where
  spells_escape := spells_escape
  compile?_eq_none_iff p text h := by
    simp only [PatternLibrary.simple]
    split
    · next hsize => simp [read_of_spelled h, hsize]
    · next hsize => simp [Nat.lt_of_not_le hsize]
  isMatch_iff p text compiled h hcompiled other := by
    simp only [PatternLibrary.simple] at hcompiled ⊢
    split at hcompiled
    · obtain rfl : p = compiled := Option.some_inj.mp ((read_of_spelled h).symm.trans hcompiled)
      exact occursIn_iff
    · cases hcompiled

end PocketTerminal.Text
