import PocketTerminal.Proofs.Text.Patterns
import PocketTerminal.Text.Wildcard
import Mathlib.Data.List.Forall2

/-! # What a search with wildcards finds

The translation keeps the literal characters back until a wildcard or the end comes. What it has
made spells one item for each character, so a text is found exactly where it can be cut into
pieces, one for each character of what was typed. -/
namespace PocketTerminal.Text

inductive GlobCovers : Char → List Char → Prop
  | star {chars : List Char} (h : '\n' ∉ chars) : GlobCovers '*' chars
  | mark {c : Char} (h : c ≠ '\n') : GlobCovers '?' [c]
  | itself {c : Char} (hstar : c ≠ '*') (hmark : c ≠ '?') : GlobCovers c [c]

def MatchesGlob (glob name : String) : Prop :=
  ∃ pieces : List (List Char), pieces.flatten = name.toList ∧
    List.Forall₂ GlobCovers glob.toList pieces

inductive PatternCovers (fold : Prop) : Char → List Char → Prop
  | star (chars : List Char) : PatternCovers fold '*' chars
  | itself {p c : Char} (hstar : p ≠ '*') (h : p = c ∨ fold ∧ p.toLower = c.toLower) :
      PatternCovers fold p [c]

/-- A line with a part that can be cut into pieces that the characters of a pattern stand for. -/
def Contains (fold : Prop) (pattern line : String) : Prop :=
  ∃ before inside behind, line.toList = before ++ inside ++ behind ∧
    ∃ pieces : List (List Char), pieces.flatten = inside ∧
      List.Forall₂ (PatternCovers fold) pattern.toList pieces

def itemOf (single : Bool) (c : Char) : Item :=
  if c = '*' then .many .dot else if c = '?' && single then .once .dot else .once (.exactly c)

variable {lib : PatternLibrary} {Exceeds : String → Prop} {single fold : Bool} {c : Char}
  {before inside behind piece : List Char}

theorem itemOf_of_not_wildcard (h : wildcard? single c = none) : itemOf single c = .once (.exactly c) := by
  unfold wildcard? at h
  unfold itemOf
  split at h
  · cases h
  · next hstar =>
    rw [if_neg hstar]
    split at h
    · cases h
    · next hmark => rw [if_neg hmark]

theorem spells_wildcard {wild : String} (h : wildcard? single c = some wild) :
    Spells [itemOf single c] wild.toList := by
  unfold wildcard? at h
  unfold itemOf
  split at h
  · next hstar =>
    obtain rfl := Option.some_inj.mp h
    rw [if_pos hstar]
    exact .many .dot .nil
  · next hstar =>
    rw [if_neg hstar]
    split at h
    · next hmark =>
      obtain rfl := Option.some_inj.mp h
      rw [if_pos hmark]
      exact .once .dot .nil
    · cases h

/-- The pattern that has been made and the literal text kept back stand for some items. -/
def Translation.StandsFor (t : Translation) (items : List Item) : Prop :=
  ∃ done, Spells done t.made.toList ∧ items = done ++ literally t.literal.toList

namespace Translation

variable {t : Translation} {items : List Item}

theorem StandsFor.finish (h : lib.Documented Exceeds) (ht : t.StandsFor items) :
    Spells items (t.finish lib).toList := by
  obtain ⟨done, hdone, rfl⟩ := ht
  rw [Translation.finish, String.toList_append]
  exact hdone.append (h.spells_escape t.literal)

/-- One more character stands for one more item. -/
theorem StandsFor.push (h : lib.Documented Exceeds) (ht : t.StandsFor items) (single : Bool)
    (c : Char) :
    (t.push lib single c).StandsFor (items ++ [itemOf single c]) := by
  unfold Translation.push
  cases hwild : wildcard? single c with
  | some wild =>
    refine ⟨items ++ [itemOf single c], ?_, (List.append_nil _).symm⟩
    dsimp only
    rw [String.toList_append]
    exact (ht.finish h).append (spells_wildcard hwild)
  | none =>
    obtain ⟨done, hdone, rfl⟩ := ht
    refine ⟨done, hdone, ?_⟩
    simp [literally, itemOf_of_not_wildcard hwild]

theorem StandsFor.foldl_push (h : lib.Documented Exceeds) (ht : t.StandsFor items)
    (chars : List Char) :
    (chars.foldl (Translation.push lib single) t).StandsFor (items ++ chars.map (itemOf single)) := by
  induction chars generalizing t items with
  | nil => rwa [List.map_nil, List.append_nil]
  | cons c chars ih =>
    have hnext := ih (ht.push h single c)
    rwa [List.append_assoc, List.singleton_append] at hnext

end Translation

theorem spells_wildcardBody (h : lib.Documented Exceeds) (single : Bool) (text : String) :
    Spells (text.toList.map (itemOf single)) (wildcardBody lib single text).toList := by
  have hstart : Translation.StandsFor {} [] := ⟨[], .nil, rfl⟩
  exact (hstart.foldl_push h text.toList).finish h

def ofGlob (glob : String) : Pattern :=
  ⟨false, .start :: glob.toList.map (itemOf true) ++ [.finish]⟩

def ofLine (fold : Bool) (text : String) : Pattern := ⟨fold, text.toList.map (itemOf false)⟩

theorem spelled_globPattern (h : lib.Documented Exceeds) (glob : String) :
    (ofGlob glob).Spelled (globPattern lib glob) := by
  refine ⟨(globPattern lib glob).toList, ?_, rfl⟩
  simp only [globPattern, String.toList_append]
  exact .start ((spells_wildcardBody h true glob).append (.finish .nil))

theorem spelled_linePattern (h : lib.Documented Exceeds) (fold : Bool) (text : String) :
    (ofLine fold text).Spelled (linePattern lib fold text) := by
  refine ⟨(wildcardBody lib false text).toList, spells_wildcardBody h false text, ?_⟩
  cases fold <;> simp [linePattern, ofLine]

/-- Items that stand for characters one by one take a text cut into a piece for each of them. -/
theorem taken_map_iff {fold : Prop} {item : Char → Item} {covers : Char → List Char → Prop}
    {free : Char → Prop} {typed : List Char} (hinside : ∀ c ∈ inside, free c)
    (hitem : ∀ p before piece behind, (∀ c ∈ piece, free c) →
      ((item p).Takes fold before piece behind ↔ covers p piece)) :
    Taken fold (typed.map item) before inside behind ↔
      ∃ pieces : List (List Char), pieces.flatten = inside ∧ List.Forall₂ covers typed pieces := by
  induction typed generalizing before inside with
  | nil => simp [taken_nil_iff, eq_comm]
  | cons p typed ih =>
    rw [List.map_cons, taken_cons_iff]
    constructor
    · rintro ⟨piece, rest, rfl, hpiece, hrest⟩
      obtain ⟨hfree, hfrees⟩ := List.forall_mem_append.mp hinside
      obtain ⟨pieces, rfl, hpieces⟩ := (ih hfrees).mp hrest
      exact ⟨piece :: pieces, rfl, .cons ((hitem p _ piece _ hfree).mp hpiece) hpieces⟩
    · rintro ⟨pieces, rfl, hpieces⟩
      cases hpieces with
      | @cons _ piece _ pieces hpiece hpieces =>
        rw [List.flatten_cons] at hinside
        obtain ⟨hfree, hfrees⟩ := List.forall_mem_append.mp hinside
        exact ⟨piece, pieces.flatten, rfl, (hitem p _ piece _ hfree).mpr hpiece,
          (ih hfrees).mpr ⟨pieces, rfl, hpieces⟩⟩

theorem takes_exactly_iff {fold : Prop} {p : Char} :
    (Item.once (.exactly p)).Takes fold before piece behind ↔
      ∃ c, piece = [c] ∧ (p = c ∨ fold ∧ p.toLower = c.toLower) := by
  constructor
  · rintro ⟨⟩
    next c hc => exact ⟨c, rfl, hc⟩
  · rintro ⟨c, rfl, hc⟩
    exact .once hc

theorem takes_star_iff {fold : Prop} :
    (Item.many .dot).Takes fold before piece behind ↔ '\n' ∉ piece := by
  constructor
  · rintro ⟨⟩ hmem
    next hpiece => exact hpiece '\n' hmem rfl
  · intro hpiece
    refine .many fun c hc => ?_
    rintro rfl
    exact hpiece hc

theorem takes_glob_iff {p : Char} :
    (itemOf true p).Takes (false = true) before piece behind ↔ GlobCovers p piece := by
  by_cases hstar : p = '*'
  · subst hstar
    refine takes_star_iff.trans ⟨.star, ?_⟩
    intro h
    cases h with
    | star h => exact h
    | itself h _ => exact absurd rfl h
  · by_cases hmark : p = '?'
    · subst hmark
      constructor
      · rintro ⟨⟩
        next hc => exact .mark hc
      · intro h
        cases h with
        | mark h => exact .once h
        | itself _ h => exact absurd rfl h
    · simp only [itemOf, hstar, hmark, decide_false, Bool.false_and, Bool.false_eq_true, if_false]
      rw [takes_exactly_iff]
      constructor
      · rintro ⟨c, rfl, hc⟩
        obtain rfl : p = c := by simpa using hc
        exact .itself hstar hmark
      · intro h
        cases h with
        | star => exact absurd rfl hstar
        | mark => exact absurd rfl hmark
        | itself => exact ⟨p, rfl, .inl rfl⟩

/-- Where there is no line feed, a star stands for any run. -/
theorem takes_line_iff {p : Char} (hfree : ∀ c ∈ piece, c ≠ '\n') :
    (itemOf false p).Takes (fold = true) before piece behind ↔ PatternCovers (fold = true) p piece := by
  by_cases hstar : p = '*'
  · subst hstar
    refine iff_of_true (takes_star_iff.mpr ?_) (.star piece)
    exact fun hmem => hfree '\n' hmem rfl
  · simp only [itemOf, hstar, Bool.and_false, Bool.false_eq_true, if_false]
    rw [takes_exactly_iff]
    constructor
    · rintro ⟨c, rfl, hc⟩
      exact .itself hstar hc
    · intro h
      cases h with
      | star => exact absurd rfl hstar
      | itself _ h => exact ⟨_, rfl, h⟩

theorem occursIn_ofGlob_iff {glob name : String} :
    (ofGlob glob).OccursIn name.toList ↔ MatchesGlob glob name := by
  have htaken (inside : List Char) :
      Taken (false = true) (glob.toList.map (itemOf true)) [] inside [] ↔
        ∃ pieces : List (List Char), pieces.flatten = inside ∧
          List.Forall₂ GlobCovers glob.toList pieces :=
    taken_map_iff (fun _ _ => trivial) fun _ _ _ _ _ => takes_glob_iff
  have hwhole : (ofGlob glob).OccursIn name.toList ↔
      Taken (false = true) (glob.toList.map (itemOf true)) [] name.toList [] := by
    unfold Pattern.OccursIn ofGlob
    dsimp only
    constructor
    · rintro ⟨before, inside, behind, htext, hall⟩
      obtain ⟨inside, last, rfl, hfirst, hlast⟩ := taken_append_iff.mp hall
      obtain ⟨first, inside, rfl, hstart, hinside⟩ := taken_cons_iff.mp hfirst
      obtain ⟨last, rest, rfl, hfinish, hrest⟩ := taken_cons_iff.mp hlast
      obtain rfl := taken_nil_iff.mp hrest
      cases hstart
      -- The last item takes nothing and has nothing behind it.
      generalize hlast : [] ++ behind = last at hfinish
      cases hfinish
      obtain rfl : behind = [] := hlast
      simpa [htext] using hinside
    · intro hinside
      refine ⟨[], name.toList, [], by simp, taken_append_iff.mpr ⟨name.toList, [], by simp, ?_, ?_⟩⟩
      · exact taken_cons_iff.mpr ⟨[], name.toList, rfl, .start, hinside⟩
      · exact taken_cons_iff.mpr ⟨[], [], rfl, .finish, .nil⟩
  rw [hwhole, htaken]
  rfl

theorem occursIn_ofLine_iff {text line : String} (hline : '\n' ∉ line.toList) :
    (ofLine fold text).OccursIn line.toList ↔ Contains (fold = true) text line := by
  unfold Pattern.OccursIn Contains ofLine
  refine exists_congr fun before => exists_congr fun inside => exists_congr fun behind => ?_
  refine and_congr_right fun hsplit => ?_
  have hinside : ∀ c ∈ inside, c ≠ '\n' := by
    rintro c hc rfl
    exact hline (by simp [hsplit, hc])
  exact taken_map_iff hinside fun _ _ _ _ hfree => takes_line_iff hfree

/-- A library that keeps its promises refuses a glob only for the size of its pattern. -/
theorem compile?_globPattern_eq_none_iff (h : lib.Documented Exceeds) (glob : String) :
    lib.compile? (globPattern lib glob) = none ↔ Exceeds (globPattern lib glob) :=
  h.compile?_eq_none_iff _ _ (spelled_globPattern h glob)

theorem compile?_linePattern_eq_none_iff (h : lib.Documented Exceeds) (fold : Bool) (text : String) :
    lib.compile? (linePattern lib fold text) = none ↔ Exceeds (linePattern lib fold text) :=
  h.compile?_eq_none_iff _ _ (spelled_linePattern h fold text)

/-- The search for names finds the names that the glob matches. -/
theorem isMatch_globPattern_iff (h : lib.Documented Exceeds) {glob name : String}
    {compiled : lib.Pattern} (hcompiled : lib.compile? (globPattern lib glob) = some compiled) :
    lib.isMatch compiled name = true ↔ MatchesGlob glob name :=
  (h.isMatch_iff _ _ _ (spelled_globPattern h glob) hcompiled name).trans occursIn_ofGlob_iff

/-- The search inside of a line finds the text where the line contains it. -/
theorem isMatch_linePattern_iff (h : lib.Documented Exceeds) {text line : String}
    {compiled : lib.Pattern} (hcompiled : lib.compile? (linePattern lib fold text) = some compiled)
    (hline : '\n' ∉ line.toList) :
    lib.isMatch compiled line = true ↔ Contains (fold = true) text line :=
  (h.isMatch_iff _ _ _ (spelled_linePattern h fold text) hcompiled line).trans
    (occursIn_ofLine_iff hline)

def stars (n : Nat) : String := String.ofList (List.replicate n '*')

variable {n : Nat}

theorem toList_stars (n : Nat) : (stars n).toList = List.replicate n '*' := String.toList_ofList

theorem matchesGlob_stars {name : String} (hn : 0 < n) (hname : '\n' ∉ name.toList) :
    MatchesGlob (stars n) name := by
  obtain ⟨n, rfl⟩ := Nat.exists_eq_add_one.mpr hn
  have hrest : List.Forall₂ GlobCovers (List.replicate n '*') (List.replicate n []) := by
    induction n with
    | zero => exact .nil
    | succ n ih => exact .cons (.star List.not_mem_nil) (ih (Nat.succ_pos n))
  refine ⟨name.toList :: List.replicate n [], by simp, ?_⟩
  rw [toList_stars]
  exact .cons (.star hname) hrest

theorem contains_stars (fold : Prop) (n : Nat) (line : String) : Contains fold (stars n) line := by
  have hall : List.Forall₂ (PatternCovers fold) (List.replicate n '*') (List.replicate n []) := by
    induction n with
    | zero => exact .nil
    | succ n ih => exact .cons (.star []) ih
  refine ⟨line.toList, [], [], by simp, List.replicate n [], by simp, ?_⟩
  rw [toList_stars]
  exact hall

/-- The pattern of a row of stars is twice as long. -/
theorem length_wildcardBody_stars (single : Bool) (n : Nat) :
    (wildcardBody .simple single (stars n)).length = 2 * n := by
  have hfold (t : Translation) (ht : t.literal = "") :
      (((List.replicate n '*').foldl (Translation.push .simple single) t).finish .simple).length =
        t.made.length + 2 * n := by
    induction n generalizing t with
    | zero => simp [Translation.finish, ht, PatternLibrary.simple]
    | succ n ih =>
      rw [List.replicate_succ, List.foldl_cons, ih _ rfl]
      have hmade : (t.push .simple single '*').made.length = t.made.length + 2 := by
        simp [Translation.push, wildcard?, ht, PatternLibrary.simple]
        decide
      omega
  unfold wildcardBody
  rw [toList_stars, hfold {} rfl]
  simp

end PocketTerminal.Text
