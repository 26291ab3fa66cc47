import PocketTerminal.Shell.Words
import Mathlib.Data.List.Induction

/-! # Blanks between words

Outside quotes a blank settles the scan: whatever was being read is a template now, and the
scan of what follows begins anew. So two lines with blanks between them have the words of the
first and then the words of the second. -/
namespace PocketTerminal

namespace Text

theorem ne_of_isBlank {c d : Char} (hc : isBlank c) (hd : isBlank d = false) : c ≠ d := by
  rintro rfl
  exact Bool.false_ne_true (hd.symm.trans hc)

theorem ne_signs_of_isBlank {c : Char} (hc : isBlank c) :
    c ≠ '\'' ∧ c ≠ '"' ∧ c ≠ '\\' ∧ c ≠ '$' :=
  ⟨ne_of_isBlank hc rfl, ne_of_isBlank hc rfl, ne_of_isBlank hc rfl, ne_of_isBlank hc rfl⟩

theorem toNat_of_isNameChar {c : Char} (hc : isNameChar c) : 48 ≤ c.toNat ∧ c.toNat ≤ 122 := by
  rcases Bool.or_eq_true_iff.mp hc with halphanum | hunderscore
  · rcases Bool.or_eq_true_iff.mp halphanum with halpha | hdigit
    · rcases Bool.or_eq_true_iff.mp halpha with hupper | hlower
      · have hrange : 65 ≤ c.toNat ∧ c.toNat ≤ 90 := of_decide_eq_true hupper
        omega
      · obtain ⟨hlow, hhigh⟩ := Bool.and_eq_true_iff.mp hlower
        have hrange : 97 ≤ c.toNat ∧ c.toNat ≤ 122 :=
          ⟨of_decide_eq_true hlow, of_decide_eq_true hhigh⟩
        omega
    · have hrange : 48 ≤ c.toNat ∧ c.toNat ≤ 57 := Char.isDigit_iff_toNat.mp hdigit
      omega
  · cases beq_iff_eq.mp hunderscore
    decide

theorem isNameChar_of_isBlank {c : Char} (hc : isBlank c) : isNameChar c = false := by
  simp only [isBlank, Bool.or_eq_true, Bool.and_eq_true, decide_eq_true_eq, beq_iff_eq] at hc
  refine Bool.eq_false_iff.mpr fun hname => ?_
  have hrange := toNat_of_isNameChar hname
  omega

end Text

namespace Shell

variable {expanding : Bool} {c : Char} {found before : List Template} {word : List Piece}

namespace Scan

theorem step_single :
    step expanding ⟨found, word, .single⟩ c =
      if c = '\'' then ⟨found, word, .bare⟩ else ⟨found, .char c :: word, .single⟩ := rfl

theorem step_escapedInDouble :
    step expanding ⟨found, word, .escapedInDouble⟩ c =
      if c = '"' || c = '\\' || c = '$' then ⟨found, .char c :: word, .double⟩
      else doubleStep expanding ⟨found, .char '\\' :: word, .escapedInDouble⟩ c := rfl

theorem step_dollar (inDouble : Bool) :
    step expanding ⟨found, word, .dollar inDouble⟩ c =
      if c = '{' then ⟨found, word, .braced inDouble []⟩
      else if Text.isNameChar c then ⟨found, word, .name inDouble [c]⟩
      else aroundStep expanding inDouble ⟨found, .char '$' :: word, .dollar inDouble⟩ c := rfl

theorem step_name (inDouble : Bool) (chars : List Char) :
    step expanding ⟨found, word, .name inDouble chars⟩ c =
      if Text.isNameChar c then ⟨found, word, .name inDouble (c :: chars)⟩
      else aroundStep expanding inDouble
        ⟨found, .var (String.ofList chars.reverse) :: word, .name inDouble chars⟩ c := rfl

theorem step_braced (inDouble : Bool) (chars : List Char) :
    step expanding ⟨found, word, .braced inDouble chars⟩ c =
      if c = '}' then
        ⟨found, .var (String.ofList chars.reverse) :: word, if inDouble then .double else .bare⟩
      else ⟨found, word, .braced inDouble (c :: chars)⟩ := rfl

theorem bareStep_blank (hc : Text.isBlank c) (s : Scan) :
    bareStep expanding s c = s.endWord.goto .bare := by
  obtain ⟨hsingle, hdouble, hescape, hdollar⟩ := Text.ne_signs_of_isBlank hc
  simp [bareStep, hsingle, hdouble, hescape, hdollar, hc]

theorem doubleStep_blank (hc : Text.isBlank c) (s : Scan) :
    doubleStep expanding s c = (s.push (.char c)).goto .double := by
  obtain ⟨-, hdouble, hescape, hdollar⟩ := Text.ne_signs_of_isBlank hc
  simp [doubleStep, hdouble, hescape, hdollar]

theorem word_endWord (s : Scan) : s.endWord.word = [] := by
  obtain ⟨found, word, place⟩ := s
  cases word with
  | nil => rfl
  | cons piece word => rfl

theorem endWord_goto_bare (s : Scan) :
    s.endWord.goto .bare = ⟨s.endWord.found.reverse.reverse, [], .bare⟩ := by
  rw [goto, word_endWord, List.reverse_reverse]

/-- What a blank does that no backslash stands before. Where the line could end here, the scan
is settled; where a quote or a brace is open, it stays open. -/
theorem step_blank (expanding : Bool) (hc : Text.isBlank c) (s : Scan) (hs : s.place ≠ .escaped) :
    (∃ ts, s.finish = .ok ts ∧ s.step expanding c = ⟨ts.reverse, [], .bare⟩) ∨
      ∃ fault, s.finish = .error fault ∧ (s.step expanding c).finish = .error fault := by
  obtain ⟨hsingle, hdouble, hescape, hdollar⟩ := Text.ne_signs_of_isBlank hc
  have hopen : c ≠ '{' := Text.ne_of_isBlank hc rfl
  have hname : ¬Text.isNameChar c := Bool.eq_false_iff.mp (Text.isNameChar_of_isBlank hc)
  obtain ⟨found, word, place⟩ := s
  cases place with
  | escaped => exact absurd rfl hs
  | bare =>
    left
    exact ⟨_, rfl, (bareStep_blank hc _).trans (endWord_goto_bare _)⟩
  | single =>
    right
    refine ⟨_, rfl, ?_⟩
    rw [step_single, if_neg hsingle]
    rfl
  | double =>
    right
    exact ⟨_, rfl, congrArg finish (doubleStep_blank hc _)⟩
  | escapedInDouble =>
    right
    have hkept : ¬(c = '"' || c = '\\' || c = '$') := by simp [hdouble, hescape, hdollar]
    refine ⟨_, rfl, ?_⟩
    rw [step_escapedInDouble, if_neg hkept, doubleStep_blank hc]
    rfl
  | dollar inDouble =>
    rw [step_dollar, if_neg hopen, if_neg hname]
    cases inDouble with
    | false => exact .inl ⟨_, rfl, (bareStep_blank hc _).trans (endWord_goto_bare _)⟩
    | true => exact .inr ⟨_, rfl, congrArg finish (doubleStep_blank hc _)⟩
  | name inDouble chars =>
    rw [step_name, if_neg hname]
    cases inDouble with
    | false => exact .inl ⟨_, rfl, (bareStep_blank hc _).trans (endWord_goto_bare _)⟩
    | true => exact .inr ⟨_, rfl, congrArg finish (doubleStep_blank hc _)⟩
  | braced inDouble chars =>
    right
    have hclose : c ≠ '}' := Text.ne_of_isBlank hc rfl
    refine ⟨_, rfl, ?_⟩
    rw [step_braced, if_neg hclose]
    rfl

theorem place_bareStep_ne (hc : c ≠ '\\') (s : Scan) :
    (bareStep expanding s c).place ≠ .escaped := by
  unfold bareStep
  rw [if_neg hc]
  repeat' split
  all_goals exact Place.noConfusion

theorem place_doubleStep_ne (s : Scan) (c : Char) :
    (doubleStep expanding s c).place ≠ .escaped := by
  unfold doubleStep
  repeat' split
  all_goals exact Place.noConfusion

theorem place_aroundStep_ne (hc : c ≠ '\\') (inDouble : Bool) (s : Scan) :
    (aroundStep expanding inDouble s c).place ≠ .escaped := by
  cases inDouble with
  | false => exact place_bareStep_ne hc s
  | true => exact place_doubleStep_ne s c

/-- Only a backslash leads behind a backslash. -/
theorem place_step_ne (hc : c ≠ '\\') (s : Scan) : (s.step expanding c).place ≠ .escaped := by
  obtain ⟨found, word, place⟩ := s
  cases place with
  | bare => exact place_bareStep_ne hc _
  | double => exact place_doubleStep_ne _ c
  | escaped => exact Place.noConfusion
  | single =>
    rw [step_single]
    split <;> exact Place.noConfusion
  | escapedInDouble =>
    rw [step_escapedInDouble]
    split
    · exact Place.noConfusion
    · exact place_doubleStep_ne _ c
  | dollar inDouble =>
    rw [step_dollar]
    repeat' split
    · exact Place.noConfusion
    · exact Place.noConfusion
    · exact place_aroundStep_ne hc inDouble _
  | name inDouble chars =>
    rw [step_name]
    split
    · exact Place.noConfusion
    · exact place_aroundStep_ne hc inDouble _
  | braced inDouble chars =>
    rw [step_braced]
    split
    · cases inDouble <;> exact Place.noConfusion
    · exact Place.noConfusion

end Scan

/-- Whether a place is outside quotes and behind no backslash, so that the line could end. -/
def Place.isOutside : Place → Bool
  | .bare | .dollar false | .name false _ => true
  | _ => false

def trailing (cs : List Char) : Nat := (cs.reverse.takeWhile (· == '\\')).length

theorem trailing_concat_backslash (cs : List Char) : trailing (cs ++ ['\\']) = trailing cs + 1 := by
  simp [trailing]

theorem trailing_concat_of_ne (hc : c ≠ '\\') (cs : List Char) : trailing (cs ++ [c]) = 0 := by
  simp [trailing, hc]

theorem trailing_eq_zero {cs : List Char} (h : cs.getLast? ≠ some '\\') : trailing cs = 0 := by
  rcases List.eq_nil_or_concat cs with rfl | ⟨cs, c, rfl⟩
  · rfl
  · rw [List.concat_eq_append] at h ⊢
    refine trailing_concat_of_ne (fun hc => h ?_) cs
    rw [List.getLast?_concat, hc]

/-- A backslash outside quotes escapes, and escaped it is a character there. -/
theorem Scan.place_step_backslash (s : Scan) :
    ((s.step expanding '\\').place = .escaped ↔ s.place.isOutside) ∧
      ((s.step expanding '\\').place.isOutside ↔ s.place = .escaped) := by
  obtain ⟨found, word, place⟩ := s
  rcases place with _ | _ | _ | _ | _ | (_ | _) | ⟨_ | _, chars⟩ | ⟨_ | _, chars⟩ <;>
    cases expanding <;>
    simp [step, bareStep, doubleStep, aroundStep, push, goto, Place.isOutside, Text.isNameChar]

/-- Of the backslashes at the end of a text that is not quoted there, each second one is
escaped itself. -/
theorem parity_trailing (cs : List Char) :
    ((cs.foldl (Scan.step expanding) {}).place = .escaped → trailing cs % 2 = 1) ∧
      ((cs.foldl (Scan.step expanding) {}).place.isOutside → trailing cs % 2 = 0) := by
  induction cs using List.reverseRecOn with
  | nil => exact ⟨Place.noConfusion, fun _ => rfl⟩
  | append_singleton cs c ih =>
    rw [List.foldl_append, List.foldl_cons, List.foldl_nil]
    by_cases hc : c = '\\'
    · subst hc
      obtain ⟨hescaped, houtside⟩ := Scan.place_step_backslash (cs.foldl (Scan.step expanding) {})
      rw [hescaped, houtside, trailing_concat_backslash]
      refine ⟨fun h => ?_, fun h => ?_⟩
      · have := ih.2 h
        omega
      · have := ih.1 h
        omega
    · rw [trailing_concat_of_ne hc]
      exact ⟨fun h => absurd h (Scan.place_step_ne hc _), fun _ => rfl⟩

theorem place_ne_escaped {cs : List Char} (h : trailing cs % 2 = 0) :
    (cs.foldl (Scan.step expanding) {}).place ≠ .escaped := by
  intro hplace
  have hodd := (parity_trailing cs).1 hplace
  omega

namespace Scan

theorem foldl_step_blank {cs : List Char} (hcs : ∀ c ∈ cs, Text.isBlank c) (found : List Template) :
    cs.foldl (step expanding) ⟨found, [], .bare⟩ = ⟨found, [], .bare⟩ := by
  induction cs with
  | nil => rfl
  | cons c cs ih =>
    obtain ⟨hc, hcs⟩ := List.forall_mem_cons.mp hcs
    have hstep : step expanding ⟨found, [], .bare⟩ c = ⟨found, [], .bare⟩ := bareStep_blank hc _
    rw [List.foldl_cons, hstep, ih hcs]

theorem finish_settled (ts : List Template) : finish ⟨ts.reverse, [], .bare⟩ = .ok ts :=
  congrArg Except.ok ts.reverse_reverse

/-- Blanks at the end change nothing unless a backslash stands before them. -/
theorem finish_foldl_blank {cs : List Char} (hcs : ∀ c ∈ cs, Text.isBlank c) {s : Scan}
    (hs : s.place ≠ .escaped) : (cs.foldl (step expanding) s).finish = s.finish := by
  induction cs generalizing s with
  | nil => rfl
  | cons c cs ih =>
    obtain ⟨hc, hcs⟩ := List.forall_mem_cons.mp hcs
    rw [List.foldl_cons]
    rcases step_blank expanding hc s hs with ⟨ts, hts, hstep⟩ | ⟨fault, hfault, hstep⟩
    · rw [hstep, foldl_step_blank hcs, finish_settled, hts]
    · rw [ih hcs (place_step_ne (Text.ne_of_isBlank hc rfl) s), hstep, hfault]

theorem settled_of_finish {cs : List Char} (hcs : ∀ c ∈ cs, Text.isBlank c) (hne : cs ≠ [])
    {s : Scan} (hs : s.place ≠ .escaped) {ts : List Template} (hfinish : s.finish = .ok ts) :
    cs.foldl (step expanding) s = ⟨ts.reverse, [], .bare⟩ := by
  obtain ⟨c, cs, rfl⟩ := List.exists_cons_of_ne_nil hne
  obtain ⟨hc, hcs⟩ := List.forall_mem_cons.mp hcs
  rcases step_blank expanding hc s hs with ⟨ts', hts', hstep⟩ | ⟨fault, hfault, -⟩
  · cases hfinish.symm.trans hts'
    rw [List.foldl_cons, hstep, foldl_step_blank hcs]
  · cases hfinish.symm.trans hfault

def behind (s : Scan) (before : List Template) : Scan := { s with found := s.found ++ before }

theorem endWord_behind (s : Scan) : (s.behind before).endWord = s.endWord.behind before := by
  obtain ⟨found, word, place⟩ := s
  cases word with
  | nil => rfl
  | cons piece word => rfl

theorem bareStep_behind (s : Scan) (c : Char) :
    bareStep expanding (s.behind before) c = (bareStep expanding s c).behind before := by
  unfold bareStep
  rw [endWord_behind]
  repeat' split
  all_goals rfl

theorem doubleStep_behind (s : Scan) (c : Char) :
    doubleStep expanding (s.behind before) c = (doubleStep expanding s c).behind before := by
  unfold doubleStep
  repeat' split
  all_goals rfl

theorem aroundStep_behind (inDouble : Bool) (s : Scan) (c : Char) :
    aroundStep expanding inDouble (s.behind before) c =
      (aroundStep expanding inDouble s c).behind before := by
  cases inDouble with
  | false => exact bareStep_behind s c
  | true => exact doubleStep_behind s c

theorem step_behind (s : Scan) (c : Char) :
    (s.behind before).step expanding c = (s.step expanding c).behind before := by
  obtain ⟨found, word, place⟩ := s
  cases place with
  | bare => exact bareStep_behind _ c
  | double => exact doubleStep_behind _ c
  | escaped => rfl
  | single =>
    rw [behind, step_single, step_single]
    split <;> rfl
  | escapedInDouble =>
    rw [behind, step_escapedInDouble, step_escapedInDouble]
    split
    · rfl
    · exact doubleStep_behind ⟨found, .char '\\' :: word, _⟩ c
  | dollar inDouble =>
    rw [behind, step_dollar, step_dollar]
    repeat' split
    · rfl
    · rfl
    · exact aroundStep_behind inDouble ⟨found, .char '$' :: word, _⟩ c
  | name inDouble chars =>
    rw [behind, step_name, step_name]
    split
    · rfl
    · exact aroundStep_behind inDouble ⟨found, .var (String.ofList chars.reverse) :: word, _⟩ c
  | braced inDouble chars =>
    rw [behind, step_braced, step_braced]
    split <;> rfl

theorem foldl_step_behind (cs : List Char) (s : Scan) :
    cs.foldl (step expanding) (s.behind before) = (cs.foldl (step expanding) s).behind before := by
  induction cs generalizing s with
  | nil => rfl
  | cons c cs ih => rw [List.foldl_cons, List.foldl_cons, step_behind, ih]

theorem found_endWord_behind (s : Scan) :
    (s.behind before).endWord.found.reverse = before.reverse ++ s.endWord.found.reverse := by
  rw [endWord_behind]
  exact List.reverse_append

theorem finish_behind (s : Scan) :
    (s.behind before).finish = s.finish.map (before.reverse ++ ·) := by
  obtain ⟨found, word, place⟩ := s
  cases place with
  | bare => exact congrArg Except.ok (found_endWord_behind _)
  | escaped => exact congrArg Except.ok (found_endWord_behind _)
  | single => rfl
  | double => rfl
  | escapedInDouble => rfl
  | dollar inDouble =>
    cases inDouble with
    | false => exact congrArg Except.ok (found_endWord_behind ⟨found, _, _⟩)
    | true => rfl
  | name inDouble chars =>
    cases inDouble with
    | false => exact congrArg Except.ok (found_endWord_behind ⟨found, _, _⟩)
    | true => rfl
  | braced inDouble chars => rfl

end Scan

theorem templates_append {a blanks b : List Char} {ts : List Template}
    (ha : templates expanding a = .ok ts) (hend : trailing a % 2 = 0) (hne : blanks ≠ [])
    (hblanks : ∀ c ∈ blanks, Text.isBlank c) :
    templates expanding (a ++ blanks ++ b) = (templates expanding b).map (ts ++ ·) := by
  have hbehind : (⟨ts.reverse, [], .bare⟩ : Scan) = Scan.behind {} ts.reverse := rfl
  rw [templates, List.foldl_append, List.foldl_append,
    Scan.settled_of_finish hblanks hne (place_ne_escaped hend) ha, hbehind, Scan.foldl_step_behind,
    Scan.finish_behind, List.reverse_reverse]
  rfl

theorem templates_trimmed {before a behind : List Char} (hbefore : ∀ c ∈ before, Text.isBlank c)
    (hbehind : ∀ c ∈ behind, Text.isBlank c) (hend : behind = [] ∨ trailing a % 2 = 0) :
    templates expanding (before ++ (a ++ behind)) = templates expanding a := by
  have hstart : before.foldl (Scan.step expanding) {} = {} := Scan.foldl_step_blank hbefore []
  rw [templates, List.foldl_append, hstart, List.foldl_append]
  rcases hend with rfl | heven
  · rfl
  · exact Scan.finish_foldl_blank hbehind (place_ne_escaped heven)

theorem words_append (word? : Template → Option String) {a blanks b : List Char} {xs : List String}
    (ha : (templates expanding a).map (List.filterMap word?) = .ok xs) (hend : trailing a % 2 = 0)
    (hne : blanks ≠ []) (hblanks : ∀ c ∈ blanks, Text.isBlank c) :
    (templates expanding (a ++ blanks ++ b)).map (List.filterMap word?) =
      ((templates expanding b).map (List.filterMap word?)).map (xs ++ ·) := by
  cases hts : templates expanding a with
  | error fault =>
    rw [hts] at ha
    cases ha
  | ok ts =>
    rw [hts] at ha
    cases ha
    rw [templates_append hts hend hne hblanks]
    cases templates expanding b with
    | error fault => rfl
    | ok us => exact congrArg Except.ok List.filterMap_append

/-- A text between two others, with blanks at both seams: the words of the three, one after
another. -/
theorem words_between (word? : Template → Option String) {a blanks b c : List Char}
    {xs ys zs : List String} (ha : (templates expanding a).map (List.filterMap word?) = .ok xs)
    (hend : trailing a % 2 = 0) (hne : blanks ≠ []) (hblanks : ∀ c ∈ blanks, Text.isBlank c)
    (hb : (templates expanding b).map (List.filterMap word?) = .ok ys) (hend' : trailing b % 2 = 0)
    (hc : (templates expanding c).map (List.filterMap word?) = .ok zs)
    (hstart : c.head?.all Text.isBlank) :
    (templates expanding (a ++ blanks ++ (b ++ c))).map (List.filterMap word?) =
      .ok (xs ++ (ys ++ zs)) := by
  have hbehind : (templates expanding (b ++ c)).map (List.filterMap word?) = .ok (ys ++ zs) := by
    cases c with
    | nil =>
      obtain rfl : [] = zs := Except.ok.inj hc
      rw [List.append_nil, List.append_nil]
      exact hb
    | cons blank c =>
      have hblank : ∀ d ∈ [blank], Text.isBlank d := List.forall_mem_singleton.mpr hstart
      have hrest : templates expanding ([blank] ++ (c ++ [])) = templates expanding c :=
        templates_trimmed hblank (List.forall_mem_nil _) (.inl rfl)
      rw [List.append_nil, List.singleton_append] at hrest
      rw [hrest] at hc
      rw [List.append_cons, words_append word? hb hend' (List.cons_ne_nil _ _) hblank, hc]
      rfl
  rw [words_append word? ha hend hne hblanks, hbehind]
  rfl

/-- A line that has words and ends in no backslash, blanks, and any other line: together they
have the words of the first line followed by those of the second, and where the second has none
they fail with its fault. This holds with dollar signs kept and under every lookup. -/
theorem tokenize_append_blanks (a blanks b : String) (hend : a.toList.getLast? ≠ some '\\')
    (hne : blanks ≠ "") (hblanks : Text.allBlank blanks) :
    (∀ xs, tokenize a = .ok xs → tokenize (a ++ blanks ++ b) = (tokenize b).map (xs ++ ·)) ∧
      ∀ lookup xs, tokenizeWith lookup a = .ok xs →
        tokenizeWith lookup (a ++ blanks ++ b) = (tokenizeWith lookup b).map (xs ++ ·) := by
  have heven : trailing a.toList % 2 = 0 := by rw [trailing_eq_zero hend]
  have hblank : ∀ c ∈ blanks.toList, Text.isBlank c := List.all_eq_true.mp hblanks
  have hnil : blanks.toList ≠ [] := fun h => hne (String.toList_inj.mp h)
  constructor
  · intro xs hxs
    rw [tokenize, String.toList_append, String.toList_append]
    exact words_append _ hxs heven hnil hblank
  · intro lookup xs hxs
    rw [tokenizeWith, String.toList_append, String.toList_append]
    exact words_append _ hxs heven hnil hblank

/-- A variable without a value is no word, and the seam is right behind a dollar sign. -/
theorem tokenize_append_blanks_dollar :
    tokenize "a'b c'$" = .ok ["ab c$"] ∧ tokenize "a'b c'$ \t\"d\"" = .ok ["ab c$", "d"] ∧
      tokenizeWith (fun _ => none) "$x a$ \t'd" = .error .unterminatedSingle := by
  have happend := tokenize_append_blanks "a'b c'$" " \t" "\"d\"" (by decide) (by decide) (by decide)
  have hfault := tokenize_append_blanks "$x a$" " \t" "'d" (by decide) (by decide) (by decide)
  exact ⟨rfl, happend.1 ["ab c$"] rfl, hfault.2 (fun _ => none) ["a$"] rfl⟩

end Shell
end PocketTerminal
