import PocketTerminal.Proofs.Shell.Blanks
import PocketTerminal.Proofs.Text.Pieces

/-! # Values of variables

A value is put into a word as it is. A line can also be read in one go, with every value put in
as soon as its variable has been read; that such a reading gives the same words says that no
character of a value is ever looked at. How many words there are depends on no more of a value
than whether it is empty. -/
namespace PocketTerminal.Shell

def Lookup.value (lookup : Lookup) (name : String) : String := (lookup name).getD ""

def Template.counts (lookup : Lookup) (template : Template) : Bool :=
  template.any (Piece.counts lookup)

def Template.fill (lookup : Lookup) (template : Template) : String :=
  String.ofList (template.flatMap (Piece.value lookup))

inductive Quote where
  | none
  | single
  | double
deriving DecidableEq, Repr

/-- The words read so far and the text of the one being read, both last first, and whether
there is such a word, be it empty. -/
structure Reading where
  words : List String := []
  text : List Char := []
  started : Bool := false
deriving DecidableEq, Repr

namespace Reading

def put (r : Reading) (cs : List Char) : Reading := { r with text := cs.reverse ++ r.text }

def start (r : Reading) : Reading := { r with started := true }

def startByText (r : Reading) : Reading := { r with started := r.started || !r.text.isEmpty }

def endWord (r : Reading) : Reading :=
  if r.started then { words := String.ofList r.text.reverse :: r.words } else r

def finish (r : Reading) : Quote → Except SyntaxFault (List String)
  | .single => .error .unterminatedSingle
  | .double => .error .unterminatedDouble
  | .none => .ok r.endWord.words.reverse

def dollar (lookup : Lookup) (cs : List Char) : Except SyntaxFault (List Char × List Char) :=
  if cs.head? = some '{' then
    match Text.cutAt '}' cs.tail with
    | some (name, rest) => .ok ((lookup.value (String.ofList name)).toList, rest)
    | none => .error .badSubstitution
  else
    let name := cs.takeWhile Text.isNameChar
    if name.isEmpty then .ok (['$'], cs)
    else .ok ((lookup.value (String.ofList name)).toList, cs.dropWhile Text.isNameChar)

/-- One character inside double quotes, with those behind it that it takes along: the quote and
the reading after it, and the characters left. -/
def advanceDouble (lookup : Lookup) (r : Reading) (c : Char) (cs : List Char) :
    Except SyntaxFault (Quote × Reading × List Char) :=
  if c = '"' then .ok (.none, r, cs)
  else if c = '\\' then
    if cs.head?.any fun next => next = '"' || next = '\\' || next = '$' then
      .ok (.double, r.put (cs.take 1), cs.drop 1)
    else .ok (.double, r.put ['\\'], cs)
  else if c = '$' then (dollar lookup cs).map fun p => (.double, r.put p.1, p.2)
  else .ok (.double, r.put [c], cs)

def advanceBare (lookup : Lookup) (r : Reading) (c : Char) (cs : List Char) :
    Except SyntaxFault (Quote × Reading × List Char) :=
  if c = '\'' then .ok (.single, r.start, cs)
  else if c = '"' then .ok (.double, r.start, cs)
  else if c = '\\' then
    .ok (.none, if cs.isEmpty then r else (r.put (cs.take 1)).start, cs.drop 1)
  else if c = '$' then (dollar lookup cs).map fun p => (.none, (r.put p.1).startByText, p.2)
  else if Text.isBlank c then .ok (.none, r.endWord, cs)
  else .ok (.none, (r.put [c]).start, cs)

def advance (lookup : Lookup) (r : Reading) (c : Char) (cs : List Char) :
    Quote → Except SyntaxFault (Quote × Reading × List Char)
  | .single => if c = '\'' then .ok (.none, r, cs) else .ok (.single, r.put [c], cs)
  | .double => advanceDouble lookup r c cs
  | .none => advanceBare lookup r c cs

theorem length_dollar {lookup : Lookup} {cs value rest : List Char}
    (h : dollar lookup cs = .ok (value, rest)) : rest.length ≤ cs.length := by
  unfold dollar at h
  split at h
  · split at h
    · next name behind hcut =>
      cases h
      have hlength := congrArg List.length (Text.eq_of_cutAt hcut)
      simp only [List.length_tail, List.length_append, List.length_cons] at hlength
      omega
    · cases h
  · dsimp only at h
    split at h
    · cases h
      exact Nat.le_refl _
    · cases h
      exact (List.dropWhile_suffix _).length_le

theorem length_map_dollar {lookup : Lookup} {cs rest : List Char} {quote quote' : Quote}
    {r' : Reading} {after : List Char × List Char → Reading}
    (h : (dollar lookup cs).map (fun p => (quote, after p, p.2)) = .ok (quote', r', rest)) :
    rest.length ≤ cs.length := by
  cases hdollar : dollar lookup cs with
  | error fault =>
    rw [hdollar] at h
    cases h
  | ok p =>
    rw [hdollar] at h
    cases h
    exact length_dollar hdollar

theorem length_advance {lookup : Lookup} {r r' : Reading} {c : Char} {cs rest : List Char}
    {quote quote' : Quote} (h : advance lookup r c cs quote = .ok (quote', r', rest)) :
    rest.length ≤ cs.length := by
  have hkept {q : Quote} {after : Reading}
      (hok : (.ok (q, after, cs) : Except SyntaxFault _) = .ok (quote', r', rest)) :
      rest.length ≤ cs.length := by
    cases hok
    exact Nat.le_refl _
  have htaken {q : Quote} {after : Reading}
      (hok : (.ok (q, after, cs.drop 1) : Except SyntaxFault _) = .ok (quote', r', rest)) :
      rest.length ≤ cs.length := by
    cases hok
    exact (List.drop_suffix 1 cs).length_le
  cases quote with
  | single =>
    unfold advance at h
    dsimp only at h
    split at h
    · exact hkept h
    · exact hkept h
  | double =>
    unfold advance advanceDouble at h
    dsimp only at h
    repeat' split at h
    · exact hkept h
    · exact htaken h
    · exact hkept h
    · exact length_map_dollar h
    · exact hkept h
  | none =>
    unfold advance advanceBare at h
    dsimp only at h
    repeat' split at h
    · exact hkept h
    · exact hkept h
    · exact htaken h
    · exact htaken h
    · exact length_map_dollar h
    · exact hkept h
    · exact hkept h

def readFrom (lookup : Lookup) (quote : Quote) (r : Reading) :
    List Char → Except SyntaxFault (List String)
  | [] => r.finish quote
  | c :: cs =>
    match h : advance lookup r c cs quote with
    | .error fault => .error fault
    | .ok (quote', r', rest) =>
      have := length_advance h
      readFrom lookup quote' r' rest
termination_by cs => cs.length

end Reading

def readLine (lookup : Lookup) (line : String) : Except SyntaxFault (List String) :=
  Reading.readFrom lookup .none {} line.toList

def Quote.place : Quote → Place
  | .none => .bare
  | .single => .single
  | .double => .double

variable {lookup : Lookup} {found : List Template} {word : List Piece}

namespace Scan

def reading (lookup : Lookup) (s : Scan) : Reading where
  words := s.found.filterMap (Template.expand? lookup)
  text := (s.word.reverse.flatMap (Piece.value lookup)).reverse
  started := s.word.any (Piece.counts lookup)

theorem reading_cons (piece : Piece) (place : Place) :
    reading lookup ⟨found, piece :: word, place⟩ =
      { (reading lookup ⟨found, word, place⟩).put (piece.value lookup) with
        started := piece.counts lookup || word.any (Piece.counts lookup) } := by
  simp [reading, Reading.put]

theorem value_eq_nil {piece : Piece} (h : piece.counts lookup = false) :
    piece.value lookup = [] := by
  cases piece with
  | char c => cases h
  | quote => cases h
  | var name => simpa [Piece.counts, Piece.value] using h

/-- There is no text where no piece of the word counts. -/
theorem text_eq_nil (h : word.any (Piece.counts lookup) = false) :
    word.reverse.flatMap (Piece.value lookup) = [] := by
  refine List.flatMap_eq_nil_iff.mpr fun piece hpiece => ?_
  exact value_eq_nil (Bool.eq_false_iff.mpr (List.any_eq_false.mp h piece (List.mem_reverse.mp hpiece)))

theorem reading_endWord (place : Place) :
    (endWord ⟨found, word, place⟩).reading lookup = (reading lookup ⟨found, word, place⟩).endWord := by
  by_cases hword : word = []
  · subst hword
    rfl
  · have hend : endWord ⟨found, word, place⟩ = ⟨word.reverse :: found, [], place⟩ := by
      obtain ⟨piece, word, rfl⟩ := List.exists_cons_of_ne_nil hword
      rfl
    cases hstarted : word.any (Piece.counts lookup) with
    | true =>
      have hexpand : Template.expand? lookup word.reverse =
          some (String.ofList (word.reverse.flatMap (Piece.value lookup))) :=
        if_pos (List.any_reverse.trans hstarted)
      simp [hend, reading, Reading.endWord, hstarted, hexpand]
    | false =>
      have hexpand : Template.expand? lookup word.reverse = none :=
        if_neg (Bool.eq_false_iff.mp (List.any_reverse.trans hstarted))
      simp [hend, reading, Reading.endWord, hstarted, hexpand, text_eq_nil hstarted]

theorem endWord_goto (place place' : Place) :
    (endWord ⟨found, word, place⟩).goto place' = (endWord ⟨found, word, place'⟩).goto place' := by
  cases word <;> rfl

theorem bareStep_eq_step (expanding : Bool) (place : Place) (c : Char) :
    bareStep expanding ⟨found, word, place⟩ c = step expanding ⟨found, word, .bare⟩ c := by
  unfold bareStep step bareStep
  rw [endWord_goto]
  rfl

theorem doubleStep_eq_step (expanding : Bool) (place : Place) (c : Char) :
    doubleStep expanding ⟨found, word, place⟩ c = step expanding ⟨found, word, .double⟩ c := rfl

theorem aroundStep_eq_step (expanding inDouble : Bool) (place : Place) (c : Char) :
    aroundStep expanding inDouble ⟨found, word, place⟩ c =
      step expanding ⟨found, word, if inDouble then .double else .bare⟩ c := by
  cases inDouble with
  | false => exact bareStep_eq_step expanding place c
  | true => exact doubleStep_eq_step expanding place c

theorem finish_braced (inDouble : Bool) (cs chars : List Char) :
    (cs.foldl (step true) ⟨found, word, .braced inDouble chars⟩).finish =
      match Text.cutAt '}' cs with
      | some (name, rest) => (rest.foldl (step true) ⟨found,
          .var (String.ofList (chars.reverse ++ name)) :: word,
          if inDouble then .double else .bare⟩).finish
      | none => .error .badSubstitution := by
  induction cs generalizing chars with
  | nil => rfl
  | cons c cs ih =>
    rw [List.foldl_cons, step_braced, Text.cutAt]
    by_cases hc : c = '}'
    · rw [if_pos hc, if_pos hc]
      dsimp only
      rw [List.append_nil]
    · rw [if_neg hc, if_neg hc, ih]
      cases Text.cutAt '}' cs with
      | none => rfl
      | some p =>
        dsimp only [Option.map_some]
        rw [List.reverse_cons, List.append_assoc]
        rfl

theorem finish_name (inDouble : Bool) (cs chars : List Char) :
    (cs.foldl (step true) ⟨found, word, .name inDouble chars⟩).finish =
      ((cs.dropWhile Text.isNameChar).foldl (step true) ⟨found,
        .var (String.ofList (chars.reverse ++ cs.takeWhile Text.isNameChar)) :: word,
        if inDouble then .double else .bare⟩).finish := by
  induction cs generalizing chars with
  | nil =>
    rw [List.takeWhile_nil, List.append_nil]
    cases inDouble <;> rfl
  | cons c cs ih =>
    rw [List.foldl_cons, step_name]
    by_cases hc : Text.isNameChar c
    · rw [if_pos hc, ih, List.takeWhile_cons_of_pos hc, List.dropWhile_cons_of_pos hc,
        List.reverse_cons, List.append_assoc]
      rfl
    · rw [if_neg hc, List.takeWhile_cons_of_neg hc, List.dropWhile_cons_of_neg hc, List.append_nil,
        List.foldl_cons, aroundStep_eq_step]

/-- Behind a dollar sign with what it names, the scan stands where it stood before, with one
piece more. -/
theorem finish_dollar (lookup : Lookup) (inDouble : Bool) (cs : List Char) :
    (∃ fault, Reading.dollar lookup cs = .error fault ∧
      (cs.foldl (step true) ⟨found, word, .dollar inDouble⟩).finish = .error fault) ∨
    ∃ piece rest, Reading.dollar lookup cs = .ok (piece.value lookup, rest) ∧
      piece.counts lookup = !(piece.value lookup).isEmpty ∧
      (cs.foldl (step true) ⟨found, word, .dollar inDouble⟩).finish =
        (rest.foldl (step true)
          ⟨found, piece :: word, if inDouble then .double else .bare⟩).finish := by
  unfold Reading.dollar
  cases cs with
  | nil =>
    right
    refine ⟨.char '$', [], rfl, rfl, ?_⟩
    cases inDouble <;> rfl
  | cons c cs =>
    rw [List.foldl_cons, step_dollar, List.head?_cons, List.tail_cons]
    by_cases hopen : c = '{'
    · rw [if_pos hopen, if_pos (congrArg some hopen), finish_braced]
      cases Text.cutAt '}' cs with
      | none => exact .inl ⟨_, rfl, rfl⟩
      | some p => exact .inr ⟨.var (String.ofList p.1), p.2, rfl, rfl, rfl⟩
    · rw [if_neg hopen, if_neg fun h => hopen (Option.some.inj h)]
      right
      by_cases hname : Text.isNameChar c
      · rw [if_pos hname, finish_name, List.takeWhile_cons_of_pos hname,
          List.dropWhile_cons_of_pos hname]
        exact ⟨.var (String.ofList (c :: cs.takeWhile Text.isNameChar)), _, rfl, rfl, rfl⟩
      · rw [if_neg hname, List.takeWhile_cons_of_neg hname, aroundStep_eq_step]
        exact ⟨.char '$', c :: cs, rfl, rfl, rfl⟩

theorem reading_cons_of_started (h : word.any (Piece.counts lookup) = true) (piece : Piece)
    (place : Place) :
    reading lookup ⟨found, piece :: word, place⟩ =
      (reading lookup ⟨found, word, place⟩).put (piece.value lookup) := by
  rw [reading_cons, h, Bool.or_true]
  exact congrArg (Reading.mk _ _) h.symm

theorem reading_cons_start {piece : Piece} (h : piece.counts lookup = true) (place : Place) :
    reading lookup ⟨found, piece :: word, place⟩ =
      ((reading lookup ⟨found, word, place⟩).put (piece.value lookup)).start := by
  rw [reading_cons, h, Bool.true_or]
  rfl

theorem reading_cons_startByText {piece : Piece}
    (h : piece.counts lookup = !(piece.value lookup).isEmpty) (place : Place) :
    reading lookup ⟨found, piece :: word, place⟩ =
      ((reading lookup ⟨found, word, place⟩).put (piece.value lookup)).startByText := by
  rw [reading_cons, h]
  cases hstarted : word.any (Piece.counts lookup) with
  | true => simp [reading, Reading.put, Reading.startByText, hstarted]
  | false => simp [reading, Reading.put, Reading.startByText, hstarted, text_eq_nil hstarted]

/-- The scan stands where the reading does, which has a word begun if a quote is open. -/
structure Follows (lookup : Lookup) (s : Scan) (quote : Quote) (r : Reading) : Prop where
  place : s.place = quote.place
  reading : s.reading lookup = r
  started : quote ≠ .none → r.started = true

/-- What the scan makes of characters is what it makes of those left by a step of the reading. -/
def Simulates (lookup : Lookup) (s : Scan) (cs : List Char) :
    Except SyntaxFault (Quote × Reading × List Char) → Prop
  | .error fault => (cs.foldl (step true) s).finish = .error fault
  | .ok (quote, r, rest) => ∃ t, Follows lookup t quote r ∧
      (cs.foldl (step true) s).finish = (rest.foldl (step true) t).finish

theorem follows_bare {r : Reading} (h : reading lookup ⟨found, word, .bare⟩ = r) :
    Follows lookup ⟨found, word, .bare⟩ .none r :=
  ⟨rfl, h, fun hne => absurd rfl hne⟩

/-- A piece more, where there is a word already. -/
theorem follows_cons (hstarted : word.any (Piece.counts lookup) = true) (quote : Quote)
    (piece : Piece) :
    Follows lookup ⟨found, piece :: word, quote.place⟩ quote
      ((reading lookup ⟨found, word, quote.place⟩).put (piece.value lookup)) :=
  ⟨rfl, reading_cons_of_started hstarted piece _, fun _ => hstarted⟩

/-- A character that takes none along. -/
theorem Follows.simulates {s t : Scan} {c : Char} {cs : List Char} {quote : Quote} {r : Reading}
    (h : Follows lookup t quote r) (hstep : s.step true c = t) :
    Simulates lookup s (c :: cs) (.ok (quote, r, cs)) := by
  subst hstep
  exact ⟨_, h, rfl⟩

theorem simulates_advanceDouble (hstarted : word.any (Piece.counts lookup) = true) (c : Char)
    (cs : List Char) :
    Simulates lookup ⟨found, word, .double⟩ (c :: cs)
      (Reading.advanceDouble lookup (reading lookup ⟨found, word, .double⟩) c cs) := by
  unfold Reading.advanceDouble
  by_cases hquote : c = '"'
  · subst hquote
    exact (follows_bare rfl).simulates rfl
  rw [if_neg hquote]
  by_cases hescape : c = '\\'
  · subst hescape
    rw [if_pos rfl]
    cases cs with
    | nil =>
      exact ⟨_, follows_cons hstarted .double (.char '\\'), rfl⟩
    | cons next rest =>
      by_cases hkept : (next = '"' || next = '\\' || next = '$') = true
      · have hstep : step true ⟨found, word, .escapedInDouble⟩ next =
            ⟨found, .char next :: word, .double⟩ := if_pos hkept
        rw [List.head?_cons, Option.any_some, if_pos hkept]
        exact (follows_cons hstarted .double (.char next)).simulates hstep
      · have hstep : step true ⟨found, word, .escapedInDouble⟩ next =
            step true ⟨found, .char '\\' :: word, .double⟩ next := if_neg hkept
        rw [List.head?_cons, Option.any_some, if_neg hkept]
        refine ⟨_, follows_cons hstarted .double (.char '\\'), ?_⟩
        exact congrArg (fun s => (rest.foldl (step true) s).finish) hstep
  rw [if_neg hescape]
  by_cases hdollar : c = '$'
  · subst hdollar
    rw [if_pos rfl]
    rcases finish_dollar lookup true cs with
      ⟨fault, hfault, hfinish⟩ | ⟨piece, rest, hpiece, -, hfinish⟩
    · rw [hfault]
      exact hfinish
    · rw [hpiece]
      exact ⟨_, follows_cons hstarted .double piece, hfinish⟩
  rw [if_neg hdollar]
  have hstep : step true ⟨found, word, .double⟩ c = ⟨found, .char c :: word, .double⟩ := by
    simp [step, doubleStep, push, goto, hquote, hescape, hdollar]
  exact (follows_cons hstarted .double (.char c)).simulates hstep

theorem simulates_advanceBare (c : Char) (cs : List Char) :
    Simulates lookup ⟨found, word, .bare⟩ (c :: cs)
      (Reading.advanceBare lookup (reading lookup ⟨found, word, .bare⟩) c cs) := by
  unfold Reading.advanceBare
  by_cases hsingle : c = '\''
  · subst hsingle
    exact Follows.simulates ⟨rfl, reading_cons_start rfl .bare, fun _ => rfl⟩ rfl
  rw [if_neg hsingle]
  by_cases hdouble : c = '"'
  · subst hdouble
    exact Follows.simulates ⟨rfl, reading_cons_start rfl .bare, fun _ => rfl⟩ rfl
  rw [if_neg hdouble]
  by_cases hescape : c = '\\'
  · subst hescape
    rw [if_pos rfl]
    cases cs with
    | nil =>
      refine ⟨⟨found, word, .bare⟩, follows_bare rfl, ?_⟩
      exact congrArg (fun s => Except.ok s.found.reverse) (endWord_goto .escaped .bare)
    | cons next rest =>
      exact ⟨_, follows_bare (reading_cons_start rfl .bare), rfl⟩
  rw [if_neg hescape]
  by_cases hdollar : c = '$'
  · subst hdollar
    rw [if_pos rfl]
    rcases finish_dollar lookup false cs with
      ⟨fault, hfault, hfinish⟩ | ⟨piece, rest, hpiece, hcounts, hfinish⟩
    · rw [hfault]
      exact hfinish
    · rw [hpiece]
      exact ⟨_, follows_bare (reading_cons_startByText hcounts .bare), hfinish⟩
  rw [if_neg hdollar]
  by_cases hblank : Text.isBlank c
  · rw [if_pos hblank]
    exact (follows_bare (reading_endWord .bare)).simulates (bareStep_blank hblank _)
  · rw [if_neg hblank]
    have hstep : step true ⟨found, word, .bare⟩ c = ⟨found, .char c :: word, .bare⟩ := by
      simp [step, bareStep, push, goto, hsingle, hdouble, hescape, hdollar, hblank]
    exact (follows_bare (reading_cons_start rfl .bare)).simulates hstep

/-- One character, with what it takes along, brings the scan and the reading to the same. -/
theorem Follows.advance {s : Scan} {quote : Quote} {r : Reading} (h : Follows lookup s quote r)
    (c : Char) (cs : List Char) :
    Simulates lookup s (c :: cs) (Reading.advance lookup r c cs quote) := by
  obtain ⟨found, word, place⟩ := s
  obtain ⟨hplace, rfl, hstarted⟩ := h
  dsimp only at hplace
  subst hplace
  cases quote with
  | none => exact simulates_advanceBare c cs
  | double => exact simulates_advanceDouble (hstarted Quote.noConfusion) c cs
  | single =>
    have hword : word.any (Piece.counts lookup) = true := hstarted Quote.noConfusion
    rw [Reading.advance]
    by_cases hc : c = '\''
    · subst hc
      exact (follows_bare rfl).simulates rfl
    · rw [if_neg hc]
      exact (follows_cons hword .single (.char c)).simulates (if_neg hc)

theorem Follows.finish {s : Scan} {quote : Quote} {r : Reading} (h : Follows lookup s quote r) :
    s.finish.map (List.filterMap (Template.expand? lookup)) = r.finish quote := by
  obtain ⟨found, word, place⟩ := s
  obtain ⟨hplace, rfl, -⟩ := h
  dsimp only at hplace
  subst hplace
  cases quote with
  | single => rfl
  | double => rfl
  | none =>
    refine congrArg Except.ok ?_
    rw [List.filterMap_reverse]
    exact congrArg (fun r => r.words.reverse) (reading_endWord .bare)

theorem Follows.readFrom {s : Scan} {quote : Quote} {r : Reading} (h : Follows lookup s quote r)
    (cs : List Char) :
    (cs.foldl (step true) s).finish.map (List.filterMap (Template.expand? lookup)) =
      Reading.readFrom lookup quote r cs := by
  fun_induction Reading.readFrom lookup quote r cs generalizing s with
  | case1 quote r => exact h.finish
  | case2 quote r c cs fault hadvance =>
    have hstep := h.advance c cs
    rw [hadvance] at hstep
    exact congrArg _ hstep
  | case3 quote r c cs quote' r' rest hadvance _ ih =>
    have hstep := h.advance c cs
    rw [hadvance] at hstep
    obtain ⟨t, ht, hfinish⟩ := hstep
    rw [hfinish]
    exact ih ht

end Scan

/-- The words of a line do not depend on when the values are put in. -/
theorem tokenizeWith_eq_readLine (lookup : Lookup) (line : String) :
    tokenizeWith lookup line = readLine lookup line :=
  (Scan.follows_bare rfl).readFrom line.toList

variable {f g : Lookup}

theorem counts_congr (h : ∀ name, f.value name = "" ↔ g.value name = "") (piece : Piece) :
    piece.counts f = piece.counts g := by
  cases piece with
  | char c => rfl
  | quote => rfl
  | var name =>
    have hempty (lookup : Lookup) : ((lookup name).getD "").toList.isEmpty = true ↔
        lookup.value name = "" := List.isEmpty_iff.trans String.toList_eq_nil_iff
    refine congrArg Bool.not (Bool.eq_iff_iff.mpr ?_)
    rw [hempty f, hempty g]
    exact h name

theorem filterMap_expand? (lookup : Lookup) (ts : List Template) :
    ts.filterMap (Template.expand? lookup) =
      (ts.filter (Template.counts lookup)).map (Template.fill lookup) := by
  induction ts with
  | nil => rfl
  | cons t ts ih =>
    cases ht : t.counts lookup with
    | true =>
      have hexpand : t.expand? lookup = some (t.fill lookup) := if_pos ht
      rw [List.filterMap_cons_some hexpand, List.filter_cons_of_pos ht, List.map_cons, ih]
    | false =>
      have hne : ¬t.counts lookup = true := Bool.eq_false_iff.mp ht
      have hexpand : t.expand? lookup = none := if_neg hne
      rw [List.filterMap_cons_none hexpand, List.filter_cons_of_neg hne, ih]

/-- Every line has the words of a reading that puts each value in as soon as its variable has
been read, and goes on behind the name. Under two lookups that leave the same variables empty
the line fails with the same fault, or it has the same templates that count: its words under
each are these templates filled with its values, and they are some of the templates that the
line has before any value is known. -/
theorem tokenizeWith_fills (h : ∀ name, f.value name = "" ↔ g.value name = "") (line : String) :
    (∀ lookup, tokenizeWith lookup line = readLine lookup line) ∧
      ((∃ fault, tokenizeWith f line = .error fault ∧ tokenizeWith g line = .error fault) ∨
        ∃ all ts : List Template, templates true line.toList = .ok all ∧ ts.Sublist all ∧
          tokenizeWith f line = .ok (ts.map (Template.fill f)) ∧
          tokenizeWith g line = .ok (ts.map (Template.fill g))) := by
  refine ⟨fun lookup => tokenizeWith_eq_readLine lookup line, ?_⟩
  have hcounts : Template.counts f = Template.counts g :=
    congrArg (fun counts t => List.any t counts) (funext (counts_congr h))
  simp only [tokenizeWith]
  cases templates true line.toList with
  | error fault => exact .inl ⟨fault, rfl, rfl⟩
  | ok all =>
    refine .inr ⟨all, all.filter (Template.counts f), rfl, List.filter_sublist, ?_, ?_⟩
    · exact congrArg Except.ok (filterMap_expand? f all)
    · rw [hcounts]
      exact congrArg Except.ok (filterMap_expand? g all)

/-- A value of quotes, blanks and dollar signs against a plain one. -/
theorem tokenizeWith_fills_signs :
    tokenizeWith (fun name => if name = "v" then some "' $v\\" else none) "a${v}\"$v\" $w $v" =
        .ok ["a' $v\\' $v\\", "' $v\\"] ∧
      ∃ ts : List Template,
        tokenizeWith (fun name => if name = "v" then some "' $v\\" else none) "a${v}\"$v\" $w $v" =
            .ok (ts.map (Template.fill fun name => if name = "v" then some "' $v\\" else none)) ∧
        tokenizeWith (fun name => if name = "v" then some "x" else none) "a${v}\"$v\" $w $v" =
            .ok (ts.map (Template.fill fun name => if name = "v" then some "x" else none)) := by
  refine ⟨rfl, ?_⟩
  have hagree (name : String) :
      Lookup.value (fun name => if name = "v" then some "' $v\\" else none) name = "" ↔
        Lookup.value (fun name => if name = "v" then some "x" else none) name = "" := by
    by_cases hname : name = "v" <;> simp [Lookup.value, hname]
  rcases (tokenizeWith_fills hagree "a${v}\"$v\" $w $v").2 with
    ⟨fault, hfault, -⟩ | ⟨-, ts, -, -, hf, hg⟩
  · cases hfault
  · exact ⟨ts, hf, hg⟩

end PocketTerminal.Shell
