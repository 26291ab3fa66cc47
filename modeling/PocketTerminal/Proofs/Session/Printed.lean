import PocketTerminal.Proofs.Session.Transcripts

/-! # What becomes of a printed line

A printed line stays where it is until a hundred lines are behind it or the output is cleared,
and only the prompt is ever written over. The exception is a line that the host prints while
the shell has the keys: it stands where the prompt is looked for, and the next thing that
brings the prompt up to date writes over it. -/
namespace PocketTerminal.Session

open Chance (Stream)
open Shell (Reply)

/-- A line with so many lines behind it, unless those have pushed it out. -/
structure Stands (lines : List String) (line : String) (behind : Nat) : Prop where
  length_le : lines.length ≤ maxLines
  found : behind < maxLines → lines.reverse[behind]? = some line

section
variable {lines : List String} {line : String} {behind : Nat}

theorem reverse_keepLast {α : Type} (n : Nat) (items : List α) :
    (keepLast n items).reverse = items.reverse.take n := by
  rw [keepLast, List.take_reverse]

theorem reverse_keepLast_concat (lines : List String) (added : String) :
    (keepLast maxLines (lines ++ [added])).reverse = (added :: lines.reverse).take maxLines := by
  rw [reverse_keepLast, List.reverse_append, List.reverse_singleton, List.singleton_append]

theorem stands_keepLast (lines : List String) (line : String) :
    Stands (keepLast maxLines (lines ++ [line])) line 0 := by
  refine ⟨?_, fun hlt => ?_⟩
  · rw [length_keepLast]
    exact Nat.min_le_left ..
  · rw [reverse_keepLast_concat, List.getElem?_take, if_pos hlt, List.getElem?_cons_zero]

theorem Stands.keepLast (h : Stands lines line behind) (added : String) :
    Stands (keepLast maxLines (lines ++ [added])) line (behind + 1) := by
  refine ⟨?_, fun hlt => ?_⟩
  · rw [length_keepLast]
    exact Nat.min_le_left ..
  · rw [reverse_keepLast_concat, List.getElem?_take, if_pos hlt, List.getElem?_cons_succ]
    exact h.found (by omega)

theorem Stands.rewrite (h : Stands lines line (behind + 1)) (prompt : String) :
    Stands (lines.dropLast ++ [prompt]) line (behind + 1) := by
  refine ⟨?_, fun hlt => ?_⟩
  · have hle := h.length_le
    have hmax : 1 ≤ maxLines := by decide
    rw [List.length_append, List.length_dropLast, List.length_singleton]
    omega
  · rw [List.reverse_append, List.reverse_singleton, List.singleton_append, List.getElem?_cons_succ,
      ← List.tail_reverse, List.getElem?_tail]
    exact h.found hlt

theorem Stands.getElem?_eq (h : Stands lines line behind) :
    lines.reverse[behind]? = if behind < maxLines then some line else none := by
  split
  · next hlt => exact h.found hlt
  · next hge =>
    refine List.getElem?_eq_none ?_
    have hle := h.length_le
    rw [List.length_reverse]
    omega

/-- What stands behind another line is moved back by what is added, and touched by nothing else. -/
theorem Stands.foldl_apply (h : Stands lines line (behind + 1)) {writes : List Write}
    (hclear : .clear ∉ writes) :
    Stands (writes.foldl Write.apply lines) line (behind + 1 + writes.countP Write.adds) := by
  induction writes generalizing lines behind with
  | nil => exact h
  | cons write rest ih =>
    have hrest : .clear ∉ rest := fun hmem => hclear (List.mem_cons_of_mem _ hmem)
    rw [List.foldl_cons]
    cases write with
    | print added | prompt added =>
      have hadded := ih (h.keepLast added) hrest
      rw [List.countP_cons_of_pos rfl]
      rwa [Nat.add_right_comm _ 1] at hadded
    | rewrite prompt =>
      rw [List.countP_cons_of_neg Bool.false_ne_true]
      exact ih (h.rewrite prompt) hrest
    | clear => exact absurd List.mem_cons_self hclear

/-- The line last printed is moved back like any other, unless the next thing is that the
prompt is written in its place. -/
theorem stands_foldl_apply {writes : List Write} (hclear : .clear ∉ writes)
    (hnext : ∀ prompt rest, writes ≠ .rewrite prompt :: rest) (lines : List String) (line : String) :
    Stands (writes.foldl Write.apply (Write.apply lines (.print line))) line
      (writes.countP Write.adds) := by
  have hprinted : Stands (Write.apply lines (.print line)) line 0 := stands_keepLast lines line
  cases writes with
  | nil => exact hprinted
  | cons write rest =>
    have hrest : .clear ∉ rest := fun hmem => hclear (List.mem_cons_of_mem _ hmem)
    rw [List.foldl_cons]
    cases write with
    | print added | prompt added =>
      have hadded := (hprinted.keepLast added).foldl_apply hrest
      rw [List.countP_cons_of_pos rfl]
      rwa [Nat.add_comm] at hadded
    | rewrite prompt => exact absurd rfl (hnext prompt rest)
    | clear => exact absurd List.mem_cons_self hclear

end

variable {s t : Session}

/-- How the prompt stands after a call that is no line of the host's. -/
inductive LeavesPrompt (s t : Session) : List Write → Prop where
  /-- It is brought up to date in its place. -/
  | rewritten (hshell : s.running = none) : LeavesPrompt s t [.rewrite t.promptLine]
  /-- There is a new one behind what was printed. -/
  | prompted {printed : List Write} (hprinted : ∀ prompt, .rewrite prompt ∉ printed) :
      LeavesPrompt s t (printed ++ [.prompt t.promptLine])
  /-- There is none, as a program has the keys. -/
  | absent {printed : List Write} (hprinted : ∀ prompt, .rewrite prompt ∉ printed)
      (hrunning : t.running.isSome) : LeavesPrompt s t printed
  /-- It is as it was. -/
  | same (hrunning : t.running = none → s.running = none) (hprompt : t.promptLine = s.promptLine) :
      LeavesPrompt s t []

theorem rewrite_notMem_outcomeWrites (s : Session) (outcome : Outcome) (prompt : String) :
    .rewrite prompt ∉ s.outcomeWrites outcome := by
  cases outcome with
  | reply reply => cases reply <;> simp [outcomeWrites, replyWrites]
  | _ => simp [outcomeWrites]

theorem leavesPrompt_launch (s' s : Session) (line : String) :
    LeavesPrompt s' (s.launch line) (s.lineWrites line) := by
  have hprinted := rewrite_notMem_outcomeWrites (s.outcome line).2 (s.outcome line).1
  unfold lineWrites promptWrites launch
  dsimp only
  cases hrunning : (s.runLine line).running with
  | none => exact .prompted hprinted
  | some program =>
    rw [Option.isNone_some, if_neg Bool.false_ne_true, if_neg Bool.false_ne_true, List.append_nil]
    exact .absent hprinted (by rw [hrunning]; rfl)

theorem leavesPrompt_pressProgram {program : Program} (hrunning : s.running = some program)
    (key : Key) : s.LeavesPrompt (s.pressProgram program key) (s.programKeyWrites key) := by
  unfold programKeyWrites pressProgram
  split
  · obtain ⟨t, ht⟩ := exists_release? hrunning .programTerminated
    obtain ⟨line, hline, -, hprompt⟩ := wrote_release? ht
    rw [hline, ht, ← hprompt]
    exact .prompted (by simp)
  · exact .absent (fun _ => List.not_mem_nil) rfl

theorem LeavesPrompt.notify {writes : List Write} (h : s.LeavesPrompt t writes) :
    s.LeavesPrompt t.notify writes := by
  cases h with
  | rewritten hshell => exact .rewritten hshell
  | prompted hprinted => exact .prompted hprinted
  | absent hprinted hrunning => exact .absent hprinted hrunning
  | same hrunning hprompt => exact .same hrunning hprompt

theorem leavesPrompt_pressShell (hshell : s.running = none) (key : Key) :
    s.LeavesPrompt (s.pressShell key) (s.shellKeyWrites key) := by
  cases key with
  | enter => exact (leavesPrompt_launch s { s with input := "", recalled := none } s.input).notify
  | escape | arrowLeft | arrowRight => exact .same id rfl
  | _ => exact .rewritten hshell

theorem leavesPrompt_press (s : Session) (key : Key) :
    s.LeavesPrompt (s.press key) (s.keyWrites key) := by
  unfold keyWrites press
  cases hrunning : s.running with
  | none => exact leavesPrompt_pressShell hrunning key
  | some program => exact leavesPrompt_pressProgram hrunning key

theorem leavesPrompt_exitProgram (s : Session) : s.LeavesPrompt s.exitProgram.2 s.exitWrites := by
  unfold exitWrites exitProgram
  cases hrelease : s.release? .programExited with
  | none =>
    rw [closingLine?_eq_none hrelease]
    exact .same id rfl
  | some t =>
    obtain ⟨line, hline, -, hprompt⟩ := wrote_release? hrelease
    have hprinted : ∀ prompt, .rewrite prompt ∉ [Write.print line] := by simp
    rw [hline, ← hprompt]
    exact .prompted hprinted

theorem leavesPrompt_applyConfig (s : Session) (config : Config) :
    s.LeavesPrompt (s.applyConfig config) (s.callWrites (.event (.applyConfig config))) := by
  unfold callWrites
  cases hrunning : s.running with
  | none => exact .rewritten hrunning
  | some program =>
    refine .absent (fun _ => List.not_mem_nil) ?_
    simp only [applyConfig, seedDefaults, notify, hrunning, Option.isNone_some, Bool.false_eq_true,
      if_false, Option.isSome_some]

theorem leavesPrompt_perform (s : Session) (event : Event) :
    s.LeavesPrompt (s.perform event) (s.callWrites (.event event)) := by
  cases event with
  | pressToken token =>
    simp only [perform, pressToken, callWrites]
    cases Key.parse token with
    | none => exact .same id rfl
    | some key => exact leavesPrompt_press s key
  | press key => exact leavesPrompt_press s key
  | launch line => exact leavesPrompt_launch s s line
  | launchProgram kind launch => exact .absent (by simp [callWrites]) rfl
  | exitProgram => exact leavesPrompt_exitProgram s
  | applyConfig config => exact leavesPrompt_applyConfig s config
  | tick dt =>
    simp only [perform, tick, callWrites]
    split
    · exact .absent (fun _ => List.not_mem_nil) rfl
    · exact .same id rfl
  | register command => exact .same id rfl
  | listen => exact .same id rfl
  | render w h failing =>
    simp only [perform, render, callWrites]
    split
    · exact .absent (fun _ => List.not_mem_nil) rfl
    · exact .same id rfl

theorem callWrites_of_rewrite_mem {call : Call} {prompt : String}
    (hmem : .rewrite prompt ∈ s.callWrites call) :
    s.running = none ∧ s.callWrites call = [.rewrite prompt] := by
  cases call with
  | println line => cases List.mem_singleton.mp hmem
  | event event =>
    have hleaves := leavesPrompt_perform s event
    generalize s.callWrites (.event event) = writes at hmem hleaves ⊢
    cases hleaves with
    | rewritten hshell =>
      cases List.mem_singleton.mp hmem
      exact ⟨hshell, rfl⟩
    | prompted hprinted =>
      rcases List.mem_append.mp hmem with hmem | hmem
      · exact absurd hmem (hprinted prompt)
      · cases List.mem_singleton.mp hmem
    | absent hprinted hrunning => exact absurd hmem (hprinted prompt)
    | same hrunning hprompt => cases hmem

section
variable (config : Config) (entropy : Stream) (calls : List Call)

def ShowsPrompt : Prop :=
  ∃ earlier,
    transcript config entropy calls = earlier ++ [.prompt (reach config entropy calls).promptLine] ∨
      transcript config entropy calls = earlier ++ [.rewrite (reach config entropy calls).promptLine]

def ShowsHostLine (line : String) : Prop :=
  ∃ before after, calls = before ++ .println line :: after ∧
    (reach config entropy before).running = none ∧
    transcript config entropy calls = transcript config entropy before ++ [.print line]

variable {config entropy calls}

/-- While the shell has the keys, the prompt or else a line of the host's own comes last. -/
theorem shows_of_shell (hshell : (reach config entropy calls).running = none) :
    ShowsPrompt config entropy calls ∨ ∃ line, ShowsHostLine config entropy calls line := by
  -- From the end of the calls: the last one that has written anything decides.
  induction calls using List.reverseRecOn with
  | nil =>
    refine .inl ⟨config.introLines.map .print, .inl ?_⟩
    rw [transcript, laterWrites, List.append_nil]
    rfl
  | append_singleton calls call ih =>
    rw [reach_concat] at hshell
    cases call with
    | println line =>
      exact .inr ⟨line, calls, [], rfl, hshell, transcript_concat config entropy calls _⟩
    | event event =>
      have hleaves := leavesPrompt_perform (reach config entropy calls) event
      have hconcat := transcript_concat config entropy calls (.event event)
      generalize (reach config entropy calls).callWrites (.event event) = writes at hleaves hconcat
      rw [ShowsPrompt, reach_concat]
      cases hleaves with
      | rewritten _ => exact .inl ⟨_, .inr hconcat⟩
      | prompted _ => exact .inl ⟨_, .inl (hconcat.trans (List.append_assoc ..).symm)⟩
      | absent _ hrunning =>
        rw [show ((reach config entropy calls).perform event).running = none from hshell] at hrunning
        cases hrunning
      | same hrunning hprompt =>
        rw [List.append_nil] at hconcat
        have hkept : ((reach config entropy calls).obey (.event event)).promptLine =
            (reach config entropy calls).promptLine := hprompt
        rcases ih (hrunning hshell) with ⟨earlier, hlast⟩ | ⟨line, before, after, rfl, hbefore, hlast⟩
        · refine .inl ⟨earlier, ?_⟩
          rw [hconcat, hkept]
          exact hlast
        · refine .inr ⟨line, before, after ++ [.event event], ?_, hbefore, hconcat.trans hlast⟩
          rw [List.append_assoc, List.cons_append]

/-- A printed line that comes last while the shell has the keys is one of the host's own. -/
theorem showsHostLine_of_print {earlier : List Write} {line : String}
    (hshell : (reach config entropy calls).running = none)
    (hlast : transcript config entropy calls = earlier ++ [.print line]) :
    ShowsHostLine config entropy calls line := by
  rcases shows_of_shell hshell with ⟨shown, hshown⟩ | ⟨other, hhost⟩
  · rw [hlast] at hshown
    rcases hshown with hshown | hshown <;> cases List.append_inj_right' hshown rfl
  · obtain ⟨before, after, -, -, hother⟩ := id hhost
    rw [hlast] at hother
    cases List.append_inj_right' hother rfl
    exact hhost

/-- The prompt is written over at the end of what some of the calls have written, while the
shell has the keys. -/
theorem transcript_before_rewrite {earlier later : List Write} {prompt : String}
    (htranscript : transcript config entropy calls = earlier ++ .rewrite prompt :: later) :
    ∃ before, before <+: calls ∧ transcript config entropy before = earlier ∧
      (reach config entropy before).running = none := by
  induction calls using List.reverseRecOn generalizing later with
  | nil =>
    have hmem : .rewrite prompt ∈ transcript config entropy [] := by
      rw [htranscript]
      exact List.mem_append_right _ List.mem_cons_self
    simp [transcript, laterWrites, startWrites] at hmem
  | append_singleton calls call ih =>
    have hlast : transcript config entropy calls = earlier →
        .rewrite prompt ∈ (reach config entropy calls).callWrites call →
        ∃ before, before <+: calls ++ [call] ∧ transcript config entropy before = earlier ∧
          (reach config entropy before).running = none := fun hearlier hmem =>
      ⟨calls, List.prefix_append .., hearlier, (callWrites_of_rewrite_mem hmem).1⟩
    rw [transcript_concat] at htranscript
    -- The prompt is written over by the last call, or by one before it.
    rcases List.append_eq_append_iff.mp htranscript with
      ⟨added, hearlier, hcall⟩ | ⟨behind, hcalls, hbehind⟩
    · have hmem : .rewrite prompt ∈ (reach config entropy calls).callWrites call := by
        rw [hcall]
        exact List.mem_append_right _ List.mem_cons_self
      rw [(callWrites_of_rewrite_mem hmem).2] at hcall
      cases added with
      | nil => exact hlast (by rw [hearlier, List.append_nil]) hmem
      | cons write added => simp at hcall
    · cases behind with
      | nil =>
        refine hlast (by rw [hcalls, List.append_nil]) ?_
        rw [← List.nil_append ((reach config entropy calls).callWrites call), ← hbehind]
        exact List.mem_cons_self
      | cons write behind =>
        obtain ⟨rfl, -⟩ := List.cons.inj hbehind
        obtain ⟨before, hprefix, hbefore⟩ := ih hcalls
        exact ⟨before, hprefix.trans (List.prefix_append ..), hbefore⟩

/-- The output is what was written. A printed line stands where the lines behind it leave it,
for as long as there are fewer than a hundred of them and the output is not cleared. What is
written over is the prompt as it is, or a line that the host has printed while the shell had
the keys and with nothing written since. -/
theorem reach_keeps_printed (config : Config) (entropy : Stream) (calls : List Call) :
    (reach config entropy calls).lines =
        (transcript config entropy calls).foldl Write.apply [] ∧
      (∀ earlier line later, transcript config entropy calls = earlier ++ .print line :: later →
        .clear ∉ later →
        (reach config entropy calls).lines.reverse[later.countP Write.adds]? =
            (if later.countP Write.adds < maxLines then some line else none) ∨
          ∃ before prompt rest, before <+: calls ∧ later = .rewrite prompt :: rest ∧
            transcript config entropy before = earlier ++ [.print line] ∧
            ShowsHostLine config entropy before line) ∧
      ∀ earlier prompt later, transcript config entropy calls = earlier ++ .rewrite prompt :: later →
        ∃ before, before <+: calls ∧ transcript config entropy before = earlier ∧
          (reach config entropy before).running = none ∧
          (ShowsPrompt config entropy before ∨ ∃ line, ShowsHostLine config entropy before line) := by
  refine ⟨lines_reach config entropy calls, fun earlier line later htranscript hclear => ?_,
    fun earlier prompt later htranscript => ?_⟩
  · -- Only what is written next can touch the line: from then on others stand behind it.
    by_cases hnext : ∃ prompt rest, later = .rewrite prompt :: rest
    · obtain ⟨prompt, rest, rfl⟩ := hnext
      rw [← List.singleton_append, ← List.append_assoc] at htranscript
      obtain ⟨before, hprefix, hbefore, hshell⟩ := transcript_before_rewrite htranscript
      exact .inr ⟨before, prompt, rest, hprefix, rfl, hbefore, showsHostLine_of_print hshell hbefore⟩
    · left
      have hplace := stands_foldl_apply hclear
        (fun prompt rest hlater => hnext ⟨prompt, rest, hlater⟩) (earlier.foldl Write.apply []) line
      rw [lines_reach, htranscript, List.foldl_append, List.foldl_cons]
      exact hplace.getElem?_eq
  · obtain ⟨before, hprefix, hbefore, hshell⟩ := transcript_before_rewrite htranscript
    exact ⟨before, hprefix, hbefore, hshell, shows_of_shell hshell⟩

end

/-- What a command has printed stays where it is under the next prompt and a typed letter. -/
theorem reach_keeps_printed_echo :
    (reach default default
      [.event (.launch "echo hi"), .event (.press (.char 'a'))]).lines.reverse[1]? = some "hi" := by
  have hkept := (reach_keeps_printed default default
    [.event (.launch "echo hi"), .event (.press (.char 'a'))]).2.1
    [.print "Welcome to folio.", .print "Type 'help' to list commands.", .prompt "visitor@folio:~$ "]
    "hi" [.prompt "visitor@folio:~$ ", .rewrite "visitor@folio:~$ a"]
    (by decide +kernel) (by decide)
  rcases hkept with hkept | ⟨_, _, _, _, hlater, _⟩
  · exact hkept
  · cases hlater

/-- The host prints a line behind the prompt, and a typed letter writes over it. -/
theorem println_overwritten :
    (reach default default [.println "note"]).lines.getLast? = some "note" ∧
      (reach default default [.println "note", .event (.press (.char 'a'))]).lines.length = 4 ∧
      "note" ∉ (reach default default [.println "note", .event (.press (.char 'a'))]).lines := by
  decide +kernel

end PocketTerminal.Session
