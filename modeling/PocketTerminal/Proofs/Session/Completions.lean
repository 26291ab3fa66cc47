import PocketTerminal.Proofs.Lists
import PocketTerminal.Proofs.Session.Display
import PocketTerminal.Proofs.Text.Beginnings
import PocketTerminal.Proofs.Text.ByteOffsets

/-! # Completing a name

The tab key completes a name that is being typed to the only name it can become, or as far as all
of these agree. What was typed is never lost, letter case aside, and a second tab adds nothing. -/
namespace PocketTerminal

namespace Shell.Registry

def Small (r : Registry) : Prop := ∀ name ∈ r.commands.names, Text.hasCapital name = false

variable {r : Registry}

theorem Small.register (h : r.Small) {command : Command}
    (hcommand : Text.hasCapital command.name = false) : (r.register command).Small := by
  intro name hname
  obtain ⟨entry, hentry, rfl⟩ := List.mem_map.mp hname
  rcases Table.fst_of_mem_place hentry with hnew | hold
  · rw [hnew]
    exact hcommand
  · exact h _ (List.mem_map_of_mem hold)

theorem Small.foldl_register (h : r.Small) {commands : List Command}
    (hcommands : ∀ command ∈ commands, Text.hasCapital command.name = false) :
    (commands.foldl Registry.register r).Small := by
  induction commands generalizing r with
  | nil => exact h
  | cons command rest ih =>
    obtain ⟨hfirst, hrest⟩ := List.forall_mem_cons.mp hcommands
    exact ih (h.register hfirst) hrest

theorem standard_small : standard.Small := by
  have hempty : empty.Small := fun name hname => nomatch hname
  exact hempty.foldl_register (by decide +kernel)

theorem builtins_small : ∀ name ∈ builtins.map Prod.fst, Text.hasCapital name = false := by
  decide

end Shell.Registry

/-- The longest text that begins all of some names. -/
structure LongestStart (names : String → Prop) (start : String) : Prop where
  common : ∀ name, names name → Text.begins start name = true
  longest : ∀ other, (∀ name, names name → Text.begins other name = true) →
    Text.begins other start = true

section

variable {names others : String → Prop} {start other : String}

theorem LongestStart.unique (h : LongestStart names start) (h' : LongestStart names other) :
    start = other :=
  Text.begins_antisymm (h'.longest start h.common) (h.longest other h'.common)

/-- What begins more names is no longer. -/
theorem LongestStart.size_le (h : LongestStart names start) (h' : LongestStart others other)
    (hmore : ∀ name, names name → others name) : other.utf8ByteSize ≤ start.utf8ByteSize := by
  have hother : Text.begins other start = true := by
    apply h.longest
    intro name hname
    exact h'.common name (hmore name hname)
  exact Text.utf8ByteSize_le_of_begins hother

end

namespace Session

variable {s t : Session} {name start : String} {names : String → Prop}

theorem prefix_sharedStart_iff {chars as bs : List Char} :
    chars <+: sharedStart as bs ↔ chars <+: as ∧ chars <+: bs := by
  induction chars generalizing as bs with
  | nil => exact iff_of_true List.nil_prefix ⟨List.nil_prefix, List.nil_prefix⟩
  | cons c chars ih =>
    cases as with
    | nil => simp [sharedStart]
    | cons a as =>
      cases bs with
      | nil => simp [sharedStart]
      | cons b bs =>
        rw [sharedStart, List.cons_prefix_cons, List.cons_prefix_cons]
        split
        · next hab =>
          rw [List.cons_prefix_cons, ih, hab]
          exact and_and_left
        · next hne =>
          constructor
          · intro h
            cases List.prefix_nil.mp h
          · rintro ⟨⟨rfl, -⟩, rfl, -⟩
            exact absurd rfl hne

theorem sharedStart_begins (as bs : List Char) :
    sharedStart as bs <+: as ∧ sharedStart as bs <+: bs :=
  prefix_sharedStart_iff.mp (List.prefix_refl _)

theorem prefix_foldl_sharedStart_iff {chars first : List Char} {rest : List String} :
    chars <+: rest.foldl (fun start other => sharedStart start other.toList) first ↔
      chars <+: first ∧ ∀ word ∈ rest, chars <+: word.toList := by
  induction rest generalizing first with
  | nil => simp
  | cons word rest ih =>
    rw [List.foldl_cons, ih, prefix_sharedStart_iff, List.forall_mem_cons, and_assoc]

theorem begins_commonStart_iff {other word : String} {rest : List String} :
    Text.begins other (commonStart (word :: rest)) = true ↔
      ∀ name ∈ word :: rest, Text.begins other name = true := by
  simp only [Text.begins_iff_toList, commonStart, String.toList_ofList, List.forall_mem_cons]
  exact prefix_foldl_sharedStart_iff

theorem longestStart_commonStart {word : String} {rest : List String}
    (hnames : ∀ name, name ∈ word :: rest ↔ names name) :
    LongestStart names (commonStart (word :: rest)) where
  common name hname :=
    begins_commonStart_iff.mp (Text.begins_refl _) name ((hnames name).mpr hname)
  longest _ hother :=
    begins_commonStart_iff.mpr fun name hname => hother name ((hnames name).mp hname)

/-- The byte of a word where the last character ends that it shares with another one from their
starts on, counted from a start. -/
def sharedBytes (start : Nat) (word other : List Char) : Nat :=
  (((Text.charIndices start word).zip other).takeWhile fun p => p.1.2 = p.2).getLast?.elim start
    fun p => p.1.1 + p.1.2.utf8Size

/-- The longest text that begins every one of some words, cut from the first one at the least byte
where the others leave it. -/
def commonBytes? : List String → Option String
  | [] => some ""
  | word :: rest =>
    let chars := word.toList
    let size := rest.foldl (fun size other => min (sharedBytes 0 chars other.toList) size)
      (Text.bytes chars)
    (Text.cutByte? size chars).map fun p => String.ofList p.1

theorem sharedBytes_cons_cons (start : Nat) (c : Char) (word other : List Char) :
    sharedBytes start (c :: word) (c :: other) = sharedBytes (start + c.utf8Size) word other := by
  unfold sharedBytes
  rw [Text.charIndices, List.zip_cons_cons, List.takeWhile_cons_of_pos (by simp),
    List.getLast?_cons]
  generalize ((Text.charIndices _ word).zip other).takeWhile _ = shared
  cases shared.getLast? <;> rfl

theorem sharedBytes_eq (start : Nat) (word other : List Char) :
    sharedBytes start word other = start + Text.bytes (sharedStart word other) := by
  induction word generalizing start other with
  | nil => rfl
  | cons a word ih =>
    cases other with
    | nil => rfl
    | cons b other =>
      rw [sharedStart]
      split
      · next hab =>
        subst hab
        rw [sharedBytes_cons_cons, ih, Text.bytes_cons, Nat.add_assoc]
      · next hne =>
        unfold sharedBytes
        rw [Text.charIndices, List.zip_cons_cons, List.takeWhile_cons_of_neg (by simpa using hne)]
        rfl

/-- The start of a word, as far as another word shares it, ends where one of the two ends first:
the start, or what the words share. -/
theorem bytes_sharedStart {start word other : List Char} (h : start <+: word) :
    Text.bytes (sharedStart start other) =
      min (Text.bytes (sharedStart word other)) (Text.bytes start) := by
  have hstart := sharedStart_begins start other
  have hword := sharedStart_begins word other
  have hle := Text.bytes_le_of_prefix (prefix_sharedStart_iff.mpr ⟨hstart.1.trans h, hstart.2⟩)
  have hle' := Text.bytes_le_of_prefix hstart.1
  -- Both begin the word, so one of them begins the other, and the shorter one is shared.
  rcases List.prefix_or_prefix_of_prefix hword.1 h with hshort | hshort
  · have hge := Text.bytes_le_of_prefix (prefix_sharedStart_iff.mpr ⟨hshort, hword.2⟩)
    omega
  · have hge := Text.bytes_le_of_prefix
      (prefix_sharedStart_iff.mpr ⟨List.prefix_refl start, hshort.trans hword.2⟩)
    omega

theorem foldl_sharedBytes {start word : List Char} (rest : List String) (h : start <+: word) :
    rest.foldl (fun size other => min (sharedBytes 0 word other.toList) size) (Text.bytes start) =
      Text.bytes (rest.foldl (fun start other => sharedStart start other.toList) start) := by
  induction rest generalizing start with
  | nil => rfl
  | cons other rest ih =>
    have hshared := (sharedStart_begins start other.toList).1
    rw [List.foldl_cons, List.foldl_cons, sharedBytes_eq, Nat.zero_add, ← bytes_sharedStart h]
    exact ih (hshared.trans h)

/-- Counted in bytes, the words agree as far as they do character by character, and the cut is
between two characters. -/
theorem commonBytes?_eq (words : List String) : commonBytes? words = some (commonStart words) := by
  cases words with
  | nil => rfl
  | cons word rest =>
    have hbegins : rest.foldl (fun start other => sharedStart start other.toList) word.toList <+:
        word.toList := (prefix_foldl_sharedStart_iff.mp (List.prefix_refl _)).1
    obtain ⟨behind, hbehind⟩ := hbegins
    have hcut := Text.cutByte?_bytes_append
      (rest.foldl (fun start other => sharedStart start other.toList) word.toList) behind
    rw [hbehind] at hcut
    rw [commonBytes?, foldl_sharedBytes rest (List.prefix_refl _), hcut]
    rfl

/-- A name that the input can become: of a command that it begins in lower case, or of an alias
that it begins as it is. -/
def Completes (s : Session) (name : String) : Prop :=
  (name ∈ s.registry.commands.names ∨ name ∈ Shell.Registry.builtins.map Prod.fst) ∧
      Text.begins (Text.lowerAscii s.input) name = true ∨
    name ∈ s.aliases.names ∧ Text.begins s.input name = true

def Several (s : Session) : Prop := ∃ a b, a ≠ b ∧ s.Completes a ∧ s.Completes b

def NameBegun (s : Session) : Prop := s.input ≠ "" ∧ Text.hasBlank s.input = false

/-- What the input is after it was completed. -/
inductive Completion (s : Session) : String → Prop
  | kept : (¬s.NameBegun ∨ ∀ name, ¬s.Completes name) → Completion s s.input
  | only {name : String} : s.NameBegun → (∀ other, s.Completes other ↔ other = name) →
      Completion s (name ++ " ")
  | longer {start : String} : s.NameBegun → s.Several → LongestStart s.Completes start →
      s.input.utf8ByteSize < start.utf8ByteSize → Completion s start
  | undecided {start : String} : s.NameBegun → s.Several → LongestStart s.Completes start →
      start.utf8ByteSize ≤ s.input.utf8ByteSize → Completion s s.input

theorem mem_candidates_iff : name ∈ s.candidates ↔ s.Completes name := by
  simp only [candidates, Shell.Registry.completions, Shell.Registry.sortedNames, List.mem_eraseDups,
    List.mem_mergeSort, List.mem_append, List.mem_filter, Completes]

theorem candidates_nodup (s : Session) : s.candidates.Nodup := nodup_eraseDups _

theorem completes_congr (hinput : t.input = s.input) (hregistry : t.registry = s.registry)
    (haliases : t.aliases = s.aliases) : t.Completes = s.Completes := by
  funext name
  rw [Completes, hinput, hregistry, haliases]
  rfl

theorem candidates_eq_nil (h : ∀ name, ¬s.Completes name) : s.candidates = [] :=
  List.eq_nil_iff_forall_not_mem.mpr fun name hname => h name (mem_candidates_iff.mp hname)

theorem candidates_eq_singleton (h : ∀ other, s.Completes other ↔ other = name) :
    s.candidates = [name] := by
  have hperm : s.candidates.Perm [name] := by
    refine (List.perm_ext_iff_of_nodup s.candidates_nodup (List.nodup_singleton name)).mpr ?_
    intro other
    rw [mem_candidates_iff, h, List.mem_singleton]
  exact List.perm_singleton.mp hperm

/-- With several candidates their list has a second one. -/
theorem candidates_eq_cons (h : s.Several) : ∃ a b rest, s.candidates = a :: b :: rest := by
  obtain ⟨a, b, hne, ha, hb⟩ := h
  have ha := mem_candidates_iff.mpr ha
  have hb := mem_candidates_iff.mpr hb
  match hnames : s.candidates with
  | [] =>
    rw [hnames] at ha
    cases ha
  | [only] =>
    rw [hnames] at ha hb
    exact absurd ((List.mem_singleton.mp ha).trans (List.mem_singleton.mp hb).symm) hne
  | first :: second :: rest => exact ⟨first, second, rest, rfl⟩

theorem longestStart_candidates (h : s.Completes name) :
    LongestStart s.Completes (commonStart s.candidates) := by
  have hname := mem_candidates_iff.mpr h
  have hmem : ∀ name, name ∈ s.candidates ↔ s.Completes name := fun _ => mem_candidates_iff
  cases hnames : s.candidates with
  | nil =>
    rw [hnames] at hname
    cases hname
  | cons word rest => exact longestStart_commonStart (hnames ▸ hmem)

theorem complete_of_not_nameBegun (h : ¬s.NameBegun) : s.complete = s := by
  unfold complete
  refine if_pos ?_
  rw [NameBegun, not_and_or, not_not, Bool.not_eq_false] at h
  simpa using h

theorem complete_of_nameBegun (h : s.NameBegun) : s.complete =
    match s.candidates with
    | [] => s
    | [name] => { s with input := name ++ " " }
    | names =>
      let start := commonStart names
      if s.input.utf8ByteSize < start.utf8ByteSize then { s with input := start } else s := by
  have htyped : ¬((s.input = "" || Text.hasBlank s.input) = true) := by
    rw [Bool.or_eq_true, decide_eq_true_iff, h.2]
    rintro (hempty | hblank)
    · exact h.1 hempty
    · cases hblank
  exact if_neg htyped

theorem complete_kept (h : ¬s.NameBegun ∨ ∀ name, ¬s.Completes name) : s.complete = s := by
  by_cases hbegun : s.NameBegun
  · rw [complete_of_nameBegun hbegun, candidates_eq_nil (h.resolve_left (not_not_intro hbegun))]
  · exact complete_of_not_nameBegun hbegun

theorem complete_only (hbegun : s.NameBegun) (h : ∀ other, s.Completes other ↔ other = name) :
    s.complete = { s with input := name ++ " " } := by
  rw [complete_of_nameBegun hbegun, candidates_eq_singleton h]

theorem complete_several (hbegun : s.NameBegun) (h : s.Several)
    (hstart : LongestStart s.Completes start) : s.complete =
      if s.input.utf8ByteSize < start.utf8ByteSize then { s with input := start } else s := by
  obtain ⟨a, b, rest, hnames⟩ := candidates_eq_cons h
  obtain ⟨name, _, _, hname, _⟩ := h
  have hcommon : commonStart (a :: b :: rest) = start :=
    (hnames ▸ longestStart_candidates hname).unique hstart
  rw [complete_of_nameBegun hbegun, hnames]
  dsimp only
  rw [hcommon]

/-- The input is what it was, the only name that it can become, or what all of these begin with. -/
theorem completion_complete (s : Session) : s.Completion s.complete.input := by
  by_cases hbegun : s.NameBegun
  case neg =>
    rw [complete_kept (.inl hbegun)]
    exact .kept (.inl hbegun)
  by_cases hnone : ∀ name, ¬s.Completes name
  case pos =>
    rw [complete_kept (.inr hnone)]
    exact .kept (.inr hnone)
  obtain ⟨name, hname⟩ := not_forall_not.mp hnone
  by_cases honly : ∀ other, s.Completes other → other = name
  case pos =>
    have honly : ∀ other, s.Completes other ↔ other = name := by
      intro other
      constructor
      · exact honly other
      · rintro rfl
        exact hname
    rw [complete_only hbegun honly]
    exact .only hbegun honly
  have hseveral : s.Several := by
    obtain ⟨other, hother⟩ := not_forall.mp honly
    obtain ⟨hother, hne⟩ := Classical.not_imp.mp hother
    exact ⟨other, name, hne, hother, hname⟩
  have hstart := longestStart_candidates hname
  rw [complete_several hbegun hseveral hstart]
  split
  · next hlt => exact .longer hbegun hseveral hstart hlt
  · next hle => exact .undecided hbegun hseveral hstart (Nat.le_of_not_lt hle)

/-- A start of a command's name is in small letters, as the name is. -/
theorem lowerAscii_eq_self_of_completes (hsmall : s.registry.Small)
    (hname : name ∈ s.registry.commands.names ∨ name ∈ Shell.Registry.builtins.map Prod.fst)
    (hstart : Text.begins start name = true) : Text.lowerAscii start = start := by
  have hcapital : Text.hasCapital name = false := by
    rcases hname with hcommand | hbuiltin
    · exact hsmall name hcommand
    · exact Shell.Registry.builtins_small name hbuiltin
  exact Text.lowerAscii_eq_self (Text.hasCapital_of_begins hstart hcapital)

/-- A name that the input can become stays one when the input grows to a start of it. -/
theorem Completes.of_begins (h : s.Completes name) (hsmall : s.registry.Small)
    (hregistry : t.registry = s.registry) (haliases : t.aliases = s.aliases)
    (hstart : Text.begins t.input name = true) : t.Completes name := by
  rw [Completes, hregistry, haliases]
  rcases h with ⟨hname, -⟩ | ⟨halias, -⟩
  · rw [lowerAscii_eq_self_of_completes hsmall hname hstart]
    exact .inl ⟨hname, hstart⟩
  · exact .inr ⟨halias, hstart⟩

theorem Completes.begins_lowerAscii (h : s.Completes name) (hsmall : s.registry.Small) :
    Text.begins (Text.lowerAscii s.input) (Text.lowerAscii name) = true := by
  rcases h with ⟨hname, hbegins⟩ | ⟨-, hbegins⟩
  · rw [lowerAscii_eq_self_of_completes hsmall hname (Text.begins_refl name)]
    exact hbegins
  · exact Text.begins_lowerAscii hbegins

/-- What was typed begins what it was completed to, letter case aside. -/
theorem begins_of_completion {input : String} (h : s.Completion input) (hsmall : s.registry.Small) :
    Text.begins (Text.lowerAscii s.input) (Text.lowerAscii input) = true := by
  cases h with
  | kept => exact Text.begins_refl _
  | undecided => exact Text.begins_refl _
  | @only name _ honly =>
    have hname := ((honly name).mpr rfl).begins_lowerAscii hsmall
    rw [Text.lowerAscii_append]
    exact Text.begins_trans hname (Text.begins_append _ _)
  | longer _ hseveral hstart hlt =>
    -- both begin a name that the input can become, and the input is the smaller of them
    obtain ⟨name, _, _, hname, _⟩ := hseveral
    refine Text.begins_of_lt (hname.begins_lowerAscii hsmall)
      (Text.begins_lowerAscii (hstart.common name hname)) ?_
    rw [Text.utf8ByteSize_lowerAscii, Text.utf8ByteSize_lowerAscii]
    exact hlt

/-- No longer start is found where the input can become all the names that it could before. -/
theorem complete_of_le (hseveral : s.Several) (hstart : LongestStart s.Completes start)
    (hmore : ∀ name, s.Completes name → t.Completes name)
    (hle : start.utf8ByteSize ≤ t.input.utf8ByteSize) : t.complete = t := by
  by_cases hbegun : t.NameBegun
  case neg => exact complete_kept (.inl hbegun)
  obtain ⟨a, b, hne, ha, hb⟩ := hseveral
  have hlonger := longestStart_candidates (hmore a ha)
  have hsize := hstart.size_le hlonger hmore
  rw [complete_several hbegun ⟨a, b, hne, hmore a ha, hmore b hb⟩ hlonger]
  exact if_neg (by omega)

/-- An input that was completed has nothing to complete. -/
theorem complete_of_completion (h : s.Completion t.input) (hsmall : s.registry.Small)
    (hregistry : t.registry = s.registry) (haliases : t.aliases = s.aliases) : t.complete = t := by
  generalize hinput : t.input = input at h
  cases h with
  | kept hkept =>
    have hnames := completes_congr hinput hregistry haliases
    refine complete_kept ?_
    rw [NameBegun, hinput, hnames]
    exact hkept
  | only hbegun honly =>
    refine complete_kept (.inl fun hnew => ?_)
    have hblank := hnew.2
    rw [hinput, Text.hasBlank, String.toList_append, List.any_append] at hblank
    exact absurd (Bool.or_eq_false_iff.mp hblank).2 (by decide)
  | longer hbegun hseveral hstart hlt =>
    refine complete_of_le hseveral hstart (fun name hname => ?_)
      (Nat.le_of_eq (congrArg String.utf8ByteSize hinput.symm))
    exact hname.of_begins hsmall hregistry haliases (hinput ▸ hstart.common name hname)
  | undecided hbegun hseveral hstart hle =>
    have hnames := completes_congr hinput hregistry haliases
    refine complete_of_le hseveral hstart (fun name hname => ?_) (hinput ▸ hle)
    rw [hnames]
    exact hname

theorem press_tab (hshell : s.running = none) : s.press .tab = s.complete.syncPrompt.notify := by
  unfold Session.press
  rw [hshell]
  rfl

theorem syncPrompt_idem (s : Session) : s.syncPrompt.notify.syncPrompt = s.syncPrompt.notify :=
  syncPrompt_of_prompted (s := s.syncPrompt.notify) (List.getLast?_concat ..)

/-- The tab key completes the name that is being typed, loses nothing of it but the case of its
letters, cuts no character in two, and does the same once as twice. -/
theorem tab_completes : Shell.Registry.standard.Small ∧
    ∀ s : Session, s.running = none → s.registry.Small →
      let t := s.press .tab
      s.Completion t.input ∧
        Text.begins (Text.lowerAscii s.input) (Text.lowerAscii t.input) = true ∧
        (∀ name, s.Completes name → (commonStart s.candidates).rawEndPos.IsValid name) ∧
        t.press .tab = t.notify := by
  refine ⟨Shell.Registry.standard_small, fun s hshell hsmall => ?_⟩
  have hcompletion := s.completion_complete
  obtain ⟨input, recalled, hedited⟩ := s.edited_complete
  rw [press_tab hshell]
  refine ⟨hcompletion, begins_of_completion hcompletion hsmall, fun name hname => ?_, ?_⟩
  · exact Text.isValid_of_begins ((longestStart_candidates hname).common name hname)
  · have hregistry : s.complete.registry = s.registry := by rw [hedited]
    have haliases : s.complete.aliases = s.aliases := by rw [hedited]
    have hrunning : s.complete.running = none := by rw [hedited, hshell]
    have hagain : s.complete.syncPrompt.notify.complete = s.complete.syncPrompt.notify :=
      complete_of_completion hcompletion hsmall hregistry haliases
    rw [press_tab (s := s.complete.syncPrompt.notify) hrunning, hagain, syncPrompt_idem]

/-- Of the names that a new session knows, two start with the letter that was typed. -/
theorem tab_completes_rm :
    let s : Session := { Session.start default default with input := "R" }
    s.running = none ∧ s.registry.Small ∧ (s.press .tab).input = "rm" ∧
      s.Completion (s.press .tab).input ∧
      Text.begins (Text.lowerAscii s.input) (Text.lowerAscii (s.press .tab).input) = true ∧
      (s.press .tab).press .tab = (s.press .tab).notify := by
  intro s
  have hall := tab_completes.2 s rfl tab_completes.1
  have hlist : (s.registry.commands.names ++ Shell.Registry.builtins.map Prod.fst).filter
      (Text.begins (Text.lowerAscii s.input)) ++ s.aliases.names.filter (Text.begins s.input) =
        ["rm", "rmdir"] := by
    decide +kernel
  have hnames : ∀ name, s.Completes name ↔ name ∈ ["rm", "rmdir"] := by
    intro name
    rw [← hlist, Completes, List.mem_append, List.mem_filter, List.mem_append, List.mem_filter]
  have hrm : s.Completes "rm" := (hnames _).mpr (by decide)
  have hseveral : s.Several := ⟨"rm", "rmdir", by decide, hrm, (hnames _).mpr (by decide)⟩
  have hstart : LongestStart s.Completes "rm" := by
    refine ⟨fun name hname => ?_, fun other hother => hother "rm" hrm⟩
    exact (by decide : ∀ name ∈ ["rm", "rmdir"], Text.begins "rm" name = true) name
      ((hnames name).mp hname)
  have hinput : (s.press .tab).input = "rm" := by
    have hcomplete := complete_several ⟨by decide, by decide⟩ hseveral hstart
    show s.complete.input = "rm"
    rw [hcomplete]
    rfl
  exact ⟨rfl, tab_completes.1, hinput, hall.1, hall.2.1, hall.2.2.2⟩

end Session
end PocketTerminal
