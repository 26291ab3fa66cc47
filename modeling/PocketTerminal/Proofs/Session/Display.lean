import PocketTerminal.Proofs.Shell.Histories
import PocketTerminal.Session.Run
import PocketTerminal.Session.Screen

/-! # What a session displays

While no program runs, the last line of the output is the prompt with the line being
typed, whatever has happened to the session. The output never grows beyond its limit. The
history does not either, unless a command of the host makes it. -/
namespace PocketTerminal.Session

open Shell (Command Environment Registry)

variable {s : Session}

theorem length_keepLast {α : Type} (n : Nat) (items : List α) :
    (keepLast n items).length = min n items.length := by
  rw [keepLast, List.length_drop]
  omega

theorem getLast?_keepLast {α : Type} {n : Nat} (hn : 0 < n) (items : List α) (last : α) :
    (keepLast n (items ++ [last])).getLast? = some last := by
  have hlt : (items ++ [last]).length - n < (items ++ [last]).length := by
    rw [List.length_append, List.length_singleton]
    omega
  rw [keepLast, List.getLast?_drop, if_neg (by omega), List.getLast?_concat]

@[simp] theorem lines_println_length (s : Session) (line : String) :
    (s.println line).lines.length ≤ maxLines := by
  simp only [println, length_keepLast]
  omega

theorem getLast?_println (s : Session) (line : String) :
    (s.println line).lines.getLast? = some line :=
  getLast?_keepLast (by decide) s.lines line

/-- The output within its limit, and its last line the prompt with the line being typed
while the shell has the keys. -/
structure Displayed (s : Session) : Prop where
  lines_le : s.lines.length ≤ maxLines
  prompted : s.running = none → s.lines.getLast? = some s.promptLine

theorem displayed_pushPrompt (s : Session) : s.pushPrompt.Displayed :=
  ⟨lines_println_length s _, fun _ => getLast?_println s _⟩

theorem displayed_syncPrompt (h : s.lines.length ≤ maxLines) : s.syncPrompt.Displayed := by
  constructor
  · simp only [syncPrompt, List.length_append, List.length_dropLast, List.length_singleton]
    have : 1 ≤ maxLines := by decide
    omega
  · intro _
    exact List.getLast?_concat ..

/-- Where the prompt stands already, to bring it up to date changes nothing. -/
theorem syncPrompt_of_prompted (h : s.lines.getLast? = some s.promptLine) : s.syncPrompt = s := by
  obtain ⟨earlier, hlines⟩ := List.getLast?_eq_some_iff.mp h
  rw [syncPrompt, hlines, List.dropLast_concat, ← hlines]

theorem Displayed.notify (h : s.Displayed) : s.notify.Displayed := ⟨h.lines_le, h.prompted⟩

/-- While a program runs nothing is asked of the last line. -/
theorem displayed_of_running (h : s.lines.length ≤ maxLines) (hrunning : s.running.isNone = false) :
    s.Displayed := by
  refine ⟨h, fun hnone => ?_⟩
  rw [hnone] at hrunning
  cases hrunning

/-- To print lines changes nothing but the output. -/
theorem exists_foldl_println (s : Session) (lines : List String) :
    ∃ shown, lines.foldl println s = { s with lines := shown } := by
  induction lines generalizing s with
  | nil => exact ⟨s.lines, rfl⟩
  | cons line rest ih => exact ih (s.println line)

theorem lines_foldl_println_length (lines : List String) (h : s.lines.length ≤ maxLines) :
    (lines.foldl println s).lines.length ≤ maxLines := by
  induction lines generalizing s with
  | nil => exact h
  | cons line rest ih => exact ih (lines_println_length s line)

theorem lines_launchProgram_length (s : Session) (kind : ProgramKind) (launch : Launch) :
    (s.launchProgram kind launch).lines.length ≤ maxLines := by
  simp only [launchProgram, notify, lines_println_length]

theorem lines_release?_length {notice : Message} {t : Session} (h : s.release? notice = some t) :
    t.lines.length ≤ maxLines := by
  obtain ⟨program, -, rfl⟩ := Option.map_eq_some_iff.mp h
  exact lines_println_length _ _

theorem lines_applyReply_length (reply : Shell.Reply) (h : s.lines.length ≤ maxLines) :
    (s.applyReply reply).lines.length ≤ maxLines := by
  cases reply with
  | text text => exact lines_foldl_println_length _ h
  | silent => exact h
  | clear => exact Nat.zero_le _
  | navigate pageSection => simp only [applyReply, navigate, lines_println_length]
  | launch kind launch =>
    rw [applyReply]
    exact lines_launchProgram_length s kind launch

theorem lines_exit_length (s : Session) : s.exit.lines.length ≤ maxLines := by
  unfold exit
  split
  · next t ht => exact lines_release?_length ht
  · exact lines_println_length _ _

theorem lines_runWords_length (words : List String) (h : s.lines.length ≤ maxLines) :
    (s.runWords words).lines.length ≤ maxLines := by
  cases words with
  | nil => exact h
  | cons first args =>
    unfold runWords
    dsimp only
    split
    · exact lines_applyReply_length _ h
    · exact lines_println_length _ _
    · split
      · exact lines_exit_length s
      · exact lines_println_length _ _

theorem lines_runLine_length (line : String) (h : s.lines.length ≤ maxLines) :
    (s.runLine line).lines.length ≤ maxLines := by
  unfold runLine
  split
  · exact h
  · dsimp only
    split
    · exact lines_println_length _ _
    · exact lines_runWords_length _ h

theorem displayed_launch (line : String) (h : s.lines.length ≤ maxLines) :
    (s.launch line).Displayed := by
  unfold launch
  dsimp only
  split
  · exact displayed_pushPrompt _
  · next hrunning =>
    exact displayed_of_running (lines_runLine_length line h) (eq_false_of_ne_true hrunning)

theorem Displayed.pressProgram (h : s.Displayed) (program : Program) (key : Key) :
    (s.pressProgram program key).Displayed := by
  unfold Session.pressProgram
  refine Displayed.notify ?_
  split
  · exact displayed_pushPrompt _
  · exact displayed_of_running h.lines_le rfl

def Edited (s t : Session) : Prop :=
  ∃ input recalled, t = { s with input := input, recalled := recalled }

theorem edited_recallOlder (s : Session) : s.Edited s.recallOlder := by
  unfold recallOlder
  dsimp only
  split
  · exact ⟨_, _, rfl⟩
  · exact ⟨s.input, s.recalled, rfl⟩

theorem edited_recallNewer (s : Session) : s.Edited s.recallNewer := by
  unfold recallNewer
  split
  · exact ⟨s.input, s.recalled, rfl⟩
  · split <;> exact ⟨_, _, rfl⟩

theorem edited_complete (s : Session) : s.Edited s.complete := by
  unfold complete
  split
  · exact ⟨s.input, s.recalled, rfl⟩
  · split
    · exact ⟨s.input, s.recalled, rfl⟩
    · exact ⟨_, s.recalled, rfl⟩
    · dsimp only
      split
      · exact ⟨_, s.recalled, rfl⟩
      · exact ⟨s.input, s.recalled, rfl⟩

/-- A key of the shell is one that runs the line, one that edits it, or one of no meaning. -/
theorem pressShell_cases (s : Session) (key : Key) :
    s.pressShell key = s.submit ∨ (∃ t, s.Edited t ∧ s.pressShell key = t.syncPrompt.notify) ∨
      s.pressShell key = s := by
  cases key with
  | enter => exact .inl rfl
  | backspace => exact .inr (.inl ⟨_, ⟨_, s.recalled, rfl⟩, rfl⟩)
  | char c => exact .inr (.inl ⟨_, ⟨_, s.recalled, rfl⟩, rfl⟩)
  | arrowUp => exact .inr (.inl ⟨_, s.edited_recallOlder, rfl⟩)
  | arrowDown => exact .inr (.inl ⟨_, s.edited_recallNewer, rfl⟩)
  | tab => exact .inr (.inl ⟨_, s.edited_complete, rfl⟩)
  | escape => exact .inr (.inr rfl)
  | arrowLeft => exact .inr (.inr rfl)
  | arrowRight => exact .inr (.inr rfl)

theorem Displayed.pressShell (h : s.Displayed) (key : Key) : (s.pressShell key).Displayed := by
  rcases s.pressShell_cases key with hkey | ⟨t, ⟨input, recalled, rfl⟩, hkey⟩ | hkey
  · rw [hkey]
    have hrun : Session.Displayed ({ s with input := "", recalled := none }.launch s.input) :=
      displayed_launch s.input h.lines_le
    exact hrun.notify
  · rw [hkey]
    refine Displayed.notify (displayed_syncPrompt ?_)
    exact h.lines_le
  · rw [hkey]
    exact h

theorem Displayed.press (h : s.Displayed) (key : Key) : (s.press key).Displayed := by
  unfold Session.press
  split
  · exact h.pressProgram _ key
  · exact h.pressShell key

/-- A history within its limit, and commands that keep it there. -/
structure Bounded (s : Session) : Prop where
  history_le : s.history.length ≤ maxHistory
  registry : s.registry.KeepsWithin maxHistory

theorem Bounded.of_eq {t : Session} (h : s.Bounded) (hhistory : t.history = s.history)
    (hregistry : t.registry = s.registry) : t.Bounded :=
  ⟨hhistory ▸ h.history_le, hregistry ▸ h.registry⟩

theorem Bounded.println (h : s.Bounded) (line : String) : (s.println line).Bounded :=
  h.of_eq rfl rfl

theorem Bounded.foldl_println (h : s.Bounded) (lines : List String) :
    (lines.foldl Session.println s).Bounded := by
  obtain ⟨shown, hshown⟩ := exists_foldl_println s lines
  rw [hshown]
  exact h.of_eq rfl rfl

theorem Bounded.remember (h : s.Bounded) (line : String) : (s.remember line).Bounded := by
  refine ⟨?_, h.registry⟩
  have hle := h.history_le
  simp only [Session.remember]
  split
  · rw [List.length_drop, List.length_append, List.length_singleton]
    omega
  · omega

theorem Bounded.launchProgram (h : s.Bounded) (kind : ProgramKind) (launch : Launch) :
    (s.launchProgram kind launch).Bounded := by
  refine h.of_eq ?_ ?_ <;> simp only [Session.launchProgram, freeStream, Session.println, notify]

theorem Bounded.release? (h : s.Bounded) {notice : Message} {t : Session}
    (ht : s.release? notice = some t) : t.Bounded := by
  obtain ⟨program, -, rfl⟩ := Option.map_eq_some_iff.mp ht
  exact h.of_eq rfl rfl

theorem Bounded.applyReply (h : s.Bounded) (reply : Shell.Reply) : (s.applyReply reply).Bounded := by
  cases reply with
  | text text => exact h.foldl_println _
  | silent => exact h
  | clear => exact h.of_eq rfl rfl
  | navigate pageSection => exact h.of_eq rfl rfl
  | launch kind launch =>
    rw [Session.applyReply]
    exact h.launchProgram kind launch

theorem Bounded.absorb (h : s.Bounded) {env : Environment}
    (henv : env.history.length ≤ maxHistory) : (s.absorb env).Bounded :=
  ⟨henv, h.registry⟩

theorem Bounded.exit (h : s.Bounded) : s.exit.Bounded := by
  unfold Session.exit
  split
  · next t ht => exact h.release? ht
  · exact h.println _

theorem Bounded.runWords (h : s.Bounded) (words : List String) : (s.runWords words).Bounded := by
  cases words with
  | nil => exact h
  | cons first args =>
    unfold Session.runWords
    dsimp only
    split
    · next reply env hd => exact (h.absorb (h.registry.dispatch h.history_le hd)).applyReply reply
    · next fault env hd => exact (h.absorb (h.registry.dispatch h.history_le hd)).println _
    · split
      · exact h.exit
      · exact h.println _

theorem Bounded.runLine (h : s.Bounded) (line : String) : (s.runLine line).Bounded := by
  unfold Session.runLine
  split
  · exact h
  · dsimp only
    split
    · exact (h.remember line).println _
    · exact (h.remember line).runWords _

theorem Bounded.launch (h : s.Bounded) (line : String) : (s.launch line).Bounded := by
  unfold Session.launch
  dsimp only
  split
  · exact (h.runLine line).println _
  · exact h.runLine line

theorem Bounded.pressShell (h : s.Bounded) (key : Key) : (s.pressShell key).Bounded := by
  rcases s.pressShell_cases key with hkey | ⟨t, ⟨input, recalled, rfl⟩, hkey⟩ | hkey
  · rw [hkey]
    have hcleared : Session.Bounded { s with input := "", recalled := none } := h.of_eq rfl rfl
    exact (hcleared.launch s.input).of_eq rfl rfl
  · rw [hkey]
    exact h.of_eq rfl rfl
  · rw [hkey]
    exact h

theorem Bounded.press (h : s.Bounded) (key : Key) : (s.press key).Bounded := by
  unfold Session.press
  split
  · next program hrunning =>
    unfold pressProgram
    split
    · cases hr : s.release? .programTerminated with
      | none => exact h.of_eq rfl rfl
      | some t => exact (h.release? hr).of_eq rfl rfl
    · exact h.of_eq rfl rfl
  · exact h.pressShell key

end PocketTerminal.Session
