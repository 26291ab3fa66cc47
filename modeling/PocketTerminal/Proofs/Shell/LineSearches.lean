import PocketTerminal.Proofs.Shell.NameSearches
import PocketTerminal.Shell.Commands.Printing

/-! # Searches for lines

A search for a pattern goes through its targets one by one. What it reports about a target are
the lines that contain the pattern, each with the path and the number under which it is read
again, in the order of a walk; or the one message that nothing is there. -/
namespace PocketTerminal

namespace Text

theorem notMem_of_mem_linesFrom {line cs piece : List Char} (hline : '\n' ∉ line)
    (h : piece ∈ linesFrom line cs) : '\n' ∉ piece := by
  induction cs generalizing line with
  | nil =>
    rw [linesFrom] at h
    split at h
    · cases h
    · obtain rfl := List.mem_singleton.mp h
      simpa using hline
  | cons c cs ih =>
    rw [linesFrom] at h
    split at h
    · rcases List.mem_cons.mp h with rfl | h
      · have hdrop : '\n' ∉ dropReturn line := by
          unfold dropReturn
          split
          · exact fun hmem => hline (List.mem_cons_of_mem _ hmem)
          · exact hline
        simpa using hdrop
      · exact ih List.not_mem_nil h
    · next hc => exact ih (by simp [hline, Ne.symm hc]) h

/-- A line has no line feed. -/
theorem notMem_of_mem_lines {text line : String} (h : line ∈ lines text) : '\n' ∉ line.toList := by
  obtain ⟨piece, hpiece, rfl⟩ := List.mem_map.mp h
  rw [String.toList_ofList]
  exact notMem_of_mem_linesFrom List.not_mem_nil hpiece

end Text

namespace Shell

open Files (Change Entry Origin Store Visit)

namespace Arguments

variable {args : List String} {flag : Char}

/-- The letter is in an argument that starts with a dash, before a lone pair of dashes. -/
def Sets (args : List String) (flag : Char) : Prop :=
  ∃ arg ∈ args.takeWhile (· ≠ "--"), ∃ letters, arg.toList = '-' :: letters ∧ flag ∈ letters

/-- The arguments without the flags: what starts with a dash is one, unless it is only the dash or
is behind a lone pair of dashes. -/
def operands (args : List String) : List String :=
  (args.takeWhile (· ≠ "--")).filter (fun arg => arg = "-" || !Text.begins "-" arg) ++
    (args.dropWhile (· ≠ "--")).drop 1

theorem withFront_cases (arg : String) (a : Arguments) :
    (∃ c letters, arg.toList = '-' :: c :: letters ∧
        a.withFront arg = { a with flags := c :: letters ++ a.flags }) ∨
      ((∀ c letters, arg.toList ≠ '-' :: c :: letters) ∧
        a.withFront arg = { a with positional := arg :: a.positional }) := by
  unfold withFront
  split
  · next c letters harg => exact .inl ⟨c, letters, harg, rfl⟩
  · next hnone => exact .inr ⟨hnone, rfl⟩

theorem has_parse_iff : (parse args).has flag = true ↔ Sets args flag := by
  unfold has Sets
  rw [List.contains_iff_mem]
  induction args with
  | nil => simp [parse]
  | cons arg rest ih =>
    rw [parse]
    by_cases hdashes : arg = "--"
    · simp [hdashes]
    · rw [if_neg hdashes, List.takeWhile_cons_of_pos (by simpa using hdashes), List.exists_mem_cons_iff,
        ← ih]
      rcases withFront_cases arg (parse rest) with ⟨c, letters, harg, hfront⟩ | ⟨hnone, hfront⟩
      · simp [hfront, harg, or_assoc]
      · have hno : ¬ ∃ letters, arg.toList = '-' :: letters ∧ flag ∈ letters := by
          rintro ⟨letters, harg, hmem⟩
          cases letters with
          | nil => cases hmem
          | cons c letters => exact hnone c letters harg
        simp [hfront, hno]

theorem positional_parse : (parse args).positional = operands args := by
  unfold operands
  induction args with
  | nil => rfl
  | cons arg rest ih =>
    rw [parse]
    by_cases hdashes : arg = "--"
    · simp [hdashes]
    · have hgo : decide (arg ≠ "--") = true := by simpa using hdashes
      rw [if_neg hdashes, List.takeWhile_cons_of_pos (p := fun arg => decide (arg ≠ "--")) hgo,
        List.dropWhile_cons_of_pos (p := fun arg => decide (arg ≠ "--")) hgo, List.filter_cons]
      rcases withFront_cases arg (parse rest) with ⟨c, letters, harg, hfront⟩ | ⟨hnone, hfront⟩
      · have hdash : arg ≠ "-" := by
          rintro rfl
          cases harg
        simp [hfront, ih, hdash, Text.begins, harg]
      · have hoperand : arg = "-" ∨ Text.begins "-" arg = false := by
          unfold Text.begins
          cases harg : arg.toList with
          | nil => exact .inr rfl
          | cons c letters =>
            by_cases hc : c = '-'
            · subst hc
              cases letters with
              | nil => exact .inl (String.toList_inj.mp harg)
              | cons d letters => exact absurd harg (hnone d letters)
            · exact .inr (by simp [List.isPrefixOf, Ne.symm hc])
        simp [hfront, ih, hoperand]

instance : Decidable (Sets args flag) := decidable_of_iff _ has_parse_iff

end Arguments

namespace Printing

variable {lib : Text.PatternLibrary} {Exceeds : String → Prop} {s : Store} {text target : String}
  {fold : Bool} {pattern : lib.Pattern} {v : Visit} {env : Environment} {args : List String}
  {loose : Option Files.Slot}

structure Hit where
  path : String
  number : Nat
  line : String

def Hit.shown (hit : Hit) : String := hit.path ++ ":" ++ toString hit.number ++ ":" ++ hit.line

/-- The hits of a text with stars at or below a place, in the order of a walk and of the lines. -/
structure Hits (s : Store) (input : String) (fold : Prop) (text : String) (hits : List Hit) :
    Prop where
  mem_iff : ∀ hit, hit ∈ hits ↔ Path.isNormal hit.path = true ∧
    s.trail input <+: Path.components hit.path ∧
    (∃ content, s.read? hit.path = some content ∧ 1 ≤ hit.number ∧
      (Text.lines content)[hit.number - 1]? = some hit.line) ∧ Text.Contains fold text hit.line
  sorted : hits.Pairwise fun a b => Path.components a.path < Path.components b.path ∨
    a.path = b.path ∧ a.number < b.number

def hitsOf (lib : Text.PatternLibrary) (pattern : lib.Pattern) (v : Visit) : List Hit :=
  match v.entry.content? with
  | none => []
  | some content =>
    ((Text.lines content).zipIdx 1).filterMap fun (line, n) =>
      if lib.isMatch pattern line then some ⟨v.path, n, line⟩ else none

theorem fileHits_eq : fileHits lib pattern v = (hitsOf lib pattern v).map Hit.shown := by
  unfold fileHits hitsOf
  cases v.entry.content? with
  | none => rfl
  | some content =>
    rw [List.map_filterMap]
    apply List.filterMap_congr
    rintro ⟨line, n⟩ -
    dsimp only
    split <;> rfl

theorem mem_hitsOf_iff (hlib : lib.Documented Exceeds)
    (hpattern : lib.compile? (Text.linePattern lib fold text) = some pattern) {hit : Hit} :
    hit ∈ hitsOf lib pattern v ↔ hit.path = v.path ∧
      (∃ content, v.entry.content? = some content ∧ 1 ≤ hit.number ∧
        (Text.lines content)[hit.number - 1]? = some hit.line) ∧
      Text.Contains (fold = true) text hit.line := by
  unfold hitsOf
  cases v.entry.content? with
  | none => simp
  | some content =>
    simp only [List.mem_filterMap, Prod.exists, List.mk_mem_zipIdx_iff_le_and_getElem?_sub,
      Option.some.injEq, exists_eq_left']
    constructor
    · rintro ⟨line, n, ⟨hn, hline⟩, hhit⟩
      split at hhit
      · next hmatch =>
        obtain rfl := Option.some.inj hhit
        have hfree := Text.notMem_of_mem_lines (List.mem_of_getElem? hline)
        exact ⟨rfl, ⟨hn, hline⟩, (Text.isMatch_linePattern_iff hlib hpattern hfree).mp hmatch⟩
      · cases hhit
    · rintro ⟨hpath, ⟨hn, hline⟩, hcontains⟩
      have hfree := Text.notMem_of_mem_lines (List.mem_of_getElem? hline)
      refine ⟨hit.line, hit.number, ⟨hn, hline⟩, ?_⟩
      rw [if_pos ((Text.isMatch_linePattern_iff hlib hpattern hfree).mpr hcontains), ← hpath]

/-- The hits in one file have rising numbers. -/
theorem hitsOf_pairwise : (hitsOf lib pattern v).Pairwise fun a b => a.number < b.number := by
  unfold hitsOf
  cases v.entry.content? with
  | none => exact .nil
  | some content =>
    have hnumbers : ((Text.lines content).zipIdx 1).Pairwise fun a b => a.2 < b.2 := by
      apply List.pairwise_map.mp
      rw [List.zipIdx_map_snd]
      exact List.pairwise_lt_range'
    apply List.pairwise_filterMap.mpr
    refine hnumbers.imp ?_
    rintro ⟨line, n⟩ ⟨other, m⟩ hnm a ha b hb
    dsimp only at ha hb hnm
    split at ha
    · split at hb
      · cases ha
        cases hb
        exact hnm
      · cases hb
    · cases ha

theorem mem_hitsOf_path {hit : Hit} (h : hit ∈ hitsOf lib pattern v) : hit.path = v.path := by
  unfold hitsOf at h
  cases hcontent : v.entry.content? with
  | none =>
    rw [hcontent] at h
    cases h
  | some content =>
    rw [hcontent] at h
    obtain ⟨⟨line, n⟩, -, hhit⟩ := List.mem_filterMap.mp h
    dsimp only at hhit
    split at hhit
    · cases hhit
      rfl
    · cases hhit

theorem hits_walk (hlib : lib.Documented Exceeds) (h : s.Forest loose) (input : String)
    (hpattern : lib.compile? (Text.linePattern lib fold text) = some pattern) :
    Hits s input (fold = true) text ((s.walk input).flatMap (hitsOf lib pattern)) where
  mem_iff hit := by
    simp only [List.mem_flatMap, mem_hitsOf_iff hlib hpattern, Store.read?, Option.bind_eq_some_iff]
    constructor
    · rintro ⟨v, hv, hpath, ⟨content, hcontent, hline⟩, hcontains⟩
      obtain ⟨hnormal, hbelow, hentry⟩ := h.exists_mem_walk_iff.mp ⟨v, hv, hpath.symm, rfl⟩
      exact ⟨hnormal, hbelow, ⟨content, ⟨v.entry, hentry, hcontent⟩, hline⟩, hcontains⟩
    · rintro ⟨hnormal, hbelow, ⟨content, ⟨e, hentry, hcontent⟩, hline⟩, hcontains⟩
      obtain ⟨v, hv, hpath, rfl⟩ := h.exists_mem_walk_iff.mpr ⟨hnormal, hbelow, hentry⟩
      exact ⟨v, hv, hpath.symm, ⟨content, hcontent, hline⟩, hcontains⟩
  sorted := by
    refine List.pairwise_flatMap.mpr ⟨?_, ?_⟩
    · intro v hv
      refine hitsOf_pairwise.imp_of_mem ?_
      intro a b ha hb hlt
      exact .inr ⟨(mem_hitsOf_path ha).trans (mem_hitsOf_path hb).symm, hlt⟩
    · refine h.walk_pairwise.imp ?_
      intro v w hlt a ha b hb
      rw [mem_hitsOf_path ha, mem_hitsOf_path hb]
      exact .inl hlt

/-- What a search answers for one of its targets. -/
inductive Answers (env : Environment) (fold recursive : Prop) (text : String) :
    String → List String → Prop
  | missing {target : String} (hnone : env.files.get? target = none) :
      Answers env fold recursive text target [env.messages.say .fileNotFound [("file", target)]]
  | passedOver {target : String} {e : Entry} (hentry : env.files.get? target = some e)
      (hdir : e.isDirectory = true) (hflat : ¬ recursive) :
      Answers env fold recursive text target []
  | file {target : String} {e : Entry} {hits : List Hit} (hentry : env.files.get? target = some e)
      (hfile : e.isDirectory = false) (hhits : Hits env.files target fold text hits)
      (hself : ∀ hit ∈ hits, hit.path = env.files.resolve target) :
      Answers env fold recursive text target (hits.map Hit.shown)
  | directory {target : String} {e : Entry} {hits : List Hit}
      (hentry : env.files.get? target = some e) (hdir : e.isDirectory = true) (hdeep : recursive)
      (hhits : Hits env.files target fold text hits) :
      Answers env fold recursive text target (hits.map Hit.shown)

theorem answers_targetHits (hlib : lib.Documented Exceeds) (h : env.files.Forest loose)
    (recursive : Bool) (target : String)
    (hpattern : lib.compile? (Text.linePattern lib fold text) = some pattern) :
    Answers env (fold = true) (recursive = true) text target
      (targetHits lib env recursive pattern target) := by
  have hshown (visits : List Visit) : visits.flatMap (fileHits lib pattern) =
      (visits.flatMap (hitsOf lib pattern)).map Hit.shown := by
    rw [List.map_flatMap]
    exact List.flatMap_congr fun v _ => fileHits_eq
  have hhits := hits_walk hlib h target hpattern
  unfold targetHits
  cases hentry : env.files.get? target with
  | none =>
    rw [h.walk_eq_nil_iff.mpr hentry]
    exact .missing hentry
  | some e =>
    obtain ⟨below, hwalk⟩ := Store.exists_walk_eq_cons hentry
    rw [hwalk] at hhits ⊢
    dsimp only
    cases hdir : e.isDirectory with
    | false =>
      rw [hshown]
      refine .file hentry hdir hhits ?_
      rw [← hwalk, Store.walk_of_file hentry hdir]
      intro hit hmem
      obtain ⟨v, hv, hhit⟩ := List.mem_flatMap.mp hmem
      obtain rfl := List.mem_singleton.mp hv
      exact mem_hitsOf_path hhit
    | true =>
      cases recursive with
      | false => exact .passedOver hentry hdir Bool.false_ne_true
      | true =>
        rw [hshown]
        exact .directory hentry hdir rfl hhits

theorem grep_run (lib : Text.PatternLibrary) (args : List String) (env : Environment) :
    (grep lib).run args env = (runGrep lib args env, env) := rfl

theorem has_parse_eq (args : List String) (flag : Char) :
    (Arguments.parse args).has flag = decide (Arguments.Sets args flag) :=
  Bool.eq_iff_iff.mpr (Arguments.has_parse_iff.trans decide_eq_true_iff.symm)

theorem runGrep_of_exceeds (hlib : lib.Documented Exceeds) {targets : List String}
    (hargs : Arguments.operands args = text :: target :: targets)
    (hexceeds : Exceeds (Text.linePattern lib (Arguments.Sets args 'i') text)) :
    runGrep lib args env = env.usageFault grepUsage := by
  unfold runGrep
  dsimp only
  rw [Arguments.positional_parse, hargs]
  dsimp only
  rw [has_parse_eq, (Text.compile?_linePattern_eq_none_iff hlib _ text).mpr hexceeds]

theorem runGrep_of_few (lib : Text.PatternLibrary) (env : Environment)
    (hargs : (Arguments.operands args).length < 2) :
    runGrep lib args env = env.usageFault grepUsage := by
  unfold runGrep
  dsimp only
  rw [Arguments.positional_parse]
  match hoperands : Arguments.operands args with
  | [] => rfl
  | [_] => rfl
  | _ :: _ :: _ =>
    rw [hoperands, List.length_cons, List.length_cons] at hargs
    omega

/-- A search answers each of its targets, one behind the other. -/
theorem runGrep_answers (hlib : lib.Documented Exceeds) (h : env.files.Forest loose)
    {targets : List String} (hargs : Arguments.operands args = text :: target :: targets)
    (hsize : ¬ Exceeds (Text.linePattern lib (Arguments.Sets args 'i') text)) :
    ∃ reports, List.Forall₂ (Answers env (Arguments.Sets args 'i')
        (Arguments.Sets args 'r' ∨ Arguments.Sets args 'R') text) (target :: targets) reports ∧
      runGrep lib args env =
        .ok (if reports.flatten = [] then .silent else .text (Text.unlines reports.flatten)) := by
  obtain ⟨pattern, hpattern⟩ : ∃ pattern,
      lib.compile? (Text.linePattern lib (Arguments.Sets args 'i') text) = some pattern := by
    apply Option.ne_none_iff_exists'.mp
    exact fun hnone => hsize ((Text.compile?_linePattern_eq_none_iff hlib _ text).mp hnone)
  refine ⟨(target :: targets).map (targetHits lib env
    ((Arguments.parse args).has 'r' || (Arguments.parse args).has 'R') pattern), ?_, ?_⟩
  · apply List.forall₂_map_right_iff.mpr
    apply List.forall₂_same.mpr
    intro each _
    have hanswers := answers_targetHits hlib h
      ((Arguments.parse args).has 'r' || (Arguments.parse args).has 'R') each hpattern
    rwa [decide_eq_true_eq, Bool.or_eq_true, Arguments.has_parse_iff, Arguments.has_parse_iff]
      at hanswers
  · unfold runGrep
    dsimp only
    rw [Arguments.positional_parse, hargs]
    dsimp only
    rw [has_parse_eq args 'i', hpattern, ← List.flatMap_def]
    dsimp only
    apply congrArg
    apply Reply.report_eq

def drawer : List Change :=
  [.createFile "/f" "a-b-c\nabc\r\nb\n", .createDir "/d" false, .createFile "/d/x" "ABBC"]

theorem operands_stars (n : Nat) :
    Arguments.operands [Text.stars n, "/d/x"] = [Text.stars n, "/d/x"] := by
  have hdash : Text.begins "-" (Text.stars n) = false := by
    rw [Text.begins, Text.toList_stars]
    cases n <;> rfl
  have hfile : Text.begins "-" "/d/x" = false := by decide
  have hdashes : Text.stars n ≠ "--" := by
    intro he
    rw [he] at hdash
    cases hdash
  simp [Arguments.operands, hdash, hdashes, hfile]

end Printing
end Shell
end PocketTerminal
