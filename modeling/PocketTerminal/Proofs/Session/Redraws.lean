import PocketTerminal.Proofs.Session.Outcomes

/-! # When the host is told to redraw

Whatever shows the host something else tells it to redraw, with two exceptions: a line that
the host prints itself, and a command line that it launches itself, unless this starts a
program. -/
namespace PocketTerminal.Session

open Shell (Reply)

variable {s t : Session}

/-- What a host can see is the same: the output, the line being typed, and who gets the keys. -/
structure SameView (s t : Session) : Prop where
  lines : t.lines = s.lines
  input : t.input = s.input
  mode : t.mode = s.mode

theorem SameView.refl (s : Session) : s.SameView s := ⟨rfl, rfl, rfl⟩

def Outcome.startsProgram : Outcome → Bool
  | .reply (.launch ..) => true
  | _ => false

def Unannounced (s : Session) : Call → Prop
  | .println _ => True
  | .event (.launch line) => (s.outcome line).1.startsProgram = false
  | .event _ => False

def Told (s t : Session) : Prop := ∃ k, 0 < k ∧ t.redraws = s.redraws.map (· + k)

theorem redraws_foldl_println (s : Session) (lines : List String) :
    (lines.foldl println s).redraws = s.redraws := by
  obtain ⟨shown, hshown⟩ := exists_foldl_println s lines
  rw [hshown]

theorem redraws_release? {notice : Message} (h : s.release? notice = some t) :
    t.redraws = s.redraws := by
  obtain ⟨program, -, rfl⟩ := Option.map_eq_some_iff.mp h
  rfl

theorem redraws_exit (s : Session) : s.exit.redraws = s.redraws := by
  unfold exit
  split
  · next t ht => exact redraws_release? ht
  · rfl

theorem redraws_launchProgram (s : Session) (kind : ProgramKind) (launch : Launch) :
    (s.launchProgram kind launch).redraws = s.redraws.map (· + 1) := by
  simp only [launchProgram, freeStream, println, notify]

theorem redraws_display (s : Session) (outcome : Outcome) :
    (s.display outcome).redraws =
      if outcome.startsProgram then s.redraws.map (· + 1) else s.redraws := by
  cases outcome with
  | nothing | refusal line => rfl
  | leave => exact redraws_exit s
  | reply reply =>
    cases reply with
    | text text => exact redraws_foldl_println s _
    | silent | clear | navigate pageSection => rfl
    | launch kind launch =>
      rw [display, applyReply, redraws_launchProgram]
      rfl

theorem redraws_launch (s : Session) (line : String) :
    (s.launch line).redraws =
      if (s.outcome line).1.startsProgram then s.redraws.map (· + 1) else s.redraws := by
  have hserved : (s.outcome line).2.redraws = s.redraws := by
    obtain ⟨files, vars, aliases, history, hserved⟩ := served_outcome s line
    rw [hserved]
  have hlaunch : (s.launch line).redraws = (s.runLine line).redraws := by
    unfold launch
    dsimp only
    split <;> rfl
  rw [hlaunch, runLine_eq, redraws_display, hserved]

/-- Something told and then told once more. -/
theorem told_notify (h : t.redraws = s.redraws ∨ s.Told t) : s.Told t.notify := by
  rcases h with h | ⟨k, hk, h⟩
  · exact ⟨1, Nat.one_pos, by rw [notify, h]⟩
  · refine ⟨k + 1, k.succ_pos, ?_⟩
    rw [notify, h, Option.map_map]
    rfl

theorem told_launch {line : String} (h : (s.outcome line).1.startsProgram) :
    s.Told (s.launch line) :=
  ⟨1, Nat.one_pos, by rw [redraws_launch, if_pos h]⟩

theorem told_submit (s : Session) : s.Told s.submit := by
  refine told_notify ?_
  have hlaunch := redraws_launch { s with input := "", recalled := none } s.input
  split at hlaunch
  · exact .inr ⟨1, Nat.one_pos, hlaunch⟩
  · exact .inl hlaunch

theorem told_pressProgram (s : Session) (program : Program) (key : Key) :
    s.Told (s.pressProgram program key) := by
  unfold pressProgram
  refine told_notify (.inl ?_)
  split
  · cases hrelease : s.release? .programTerminated with
    | none => rfl
    | some t => exact redraws_release? (t := t) hrelease
  · rfl

theorem told_applyConfig (s : Session) (config : Config) : s.Told (s.applyConfig config) := by
  unfold applyConfig
  refine told_notify (.inl ?_)
  split <;> rfl

theorem pressShell_told_or_same (s : Session) (key : Key) :
    s.Told (s.pressShell key) ∨ s.SameView (s.pressShell key) := by
  rcases s.pressShell_cases key with hkey | ⟨t, ⟨input, recalled, rfl⟩, hkey⟩ | hkey
  · rw [hkey]
    exact .inl (told_submit s)
  · rw [hkey]
    exact .inl (told_notify (.inl rfl))
  · rw [hkey]
    exact .inr (.refl s)

theorem press_told_or_same (s : Session) (key : Key) :
    s.Told (s.press key) ∨ s.SameView (s.press key) := by
  unfold press
  split
  · exact .inl (told_pressProgram s _ key)
  · exact pressShell_told_or_same s key

theorem exitProgram_told_or_same (s : Session) :
    s.Told s.exitProgram.2 ∨ s.SameView s.exitProgram.2 := by
  unfold exitProgram
  split
  · next t ht => exact .inl (told_notify (.inl (redraws_release? (t := t) ht)))
  · exact .inr (.refl s)

theorem tick_told_or_same (s : Session) (dt : Float32) :
    s.Told (s.tick dt) ∨ s.SameView (s.tick dt) := by
  unfold tick
  split
  · exact .inl (told_notify (.inl rfl))
  · exact .inr (.refl s)

theorem mode_of_running {program : Program} (h : s.running = some program) :
    s.mode = if program.kind = .nano then .editor else .game := by
  unfold mode
  rw [h]
  cases program <;> rfl

theorem kind_seen (w h : UInt32) (program : Program) : (program.seen w h).kind = program.kind := by
  cases program <;> rfl

theorem sameView_render (s : Session) (w h : UInt32) (failing : Option Nat) :
    s.SameView (s.render w h failing).2 := by
  unfold render
  split
  · next program hrunning =>
    refine ⟨rfl, rfl, ?_⟩
    rw [mode_of_running hrunning, mode_of_running rfl, Program.render]
    dsimp only
    split
    · rfl
    · rw [kind_seen]
  · exact .refl s

theorem perform_told_or_same {event : Event} (hannounced : ¬ s.Unannounced (.event event)) :
    s.Told (s.perform event) ∨ s.SameView (s.perform event) := by
  cases event with
  | pressToken token =>
    unfold perform pressToken
    dsimp only
    split
    · exact press_told_or_same s _
    · exact .inr (.refl s)
  | press key => exact press_told_or_same s key
  | launch line => exact .inl (told_launch (eq_true_of_ne_false hannounced))
  | launchProgram kind launch => exact .inl ⟨1, Nat.one_pos, rfl⟩
  | exitProgram => exact exitProgram_told_or_same s
  | tick dt => exact tick_told_or_same s dt
  | applyConfig config => exact .inl (told_applyConfig s config)
  | register command => exact .inr ⟨rfl, rfl, rfl⟩
  | listen => exact .inr ⟨rfl, rfl, rfl⟩
  | render w h failing => exact .inr (sameView_render s w h failing)

theorem redraws_of_unannounced {call : Call} (h : s.Unannounced call) :
    (s.obey call).redraws = s.redraws := by
  cases call with
  | println line => rfl
  | event event =>
    cases event with
    | launch line =>
      rw [obey, perform, redraws_launch, show (s.outcome line).1.startsProgram = false from h]
      rfl
    | _ => exact h.elim

/-- A host that listens is told to redraw by every call that shows it something else, save
for the lines that it prints and the command lines that start no program: those it is never
told of. -/
theorem obey_redraws {n : Nat} (hlistening : s.redraws = some n) (call : Call) :
    (¬ s.Unannounced call → ¬ s.SameView (s.obey call) →
        ∃ m, n < m ∧ (s.obey call).redraws = some m) ∧
      (s.Unannounced call → (s.obey call).redraws = some n) := by
  refine ⟨fun hannounced hview => ?_, fun hunannounced => ?_⟩
  · cases call with
    | println line => exact absurd trivial hannounced
    | event event =>
      rcases perform_told_or_same hannounced with ⟨k, hk, htold⟩ | hsame
      · exact ⟨n + k, Nat.lt_add_of_pos_right hk, by rw [obey, htold, hlistening]; rfl⟩
      · exact absurd hsame hview
  · rw [redraws_of_unannounced hunannounced, hlistening]

/-- A typed letter shows in the input, and the host is told. -/
theorem obey_redraws_letter :
    ∃ m, 0 < m ∧
      ((reach default default [.event .listen]).obey (.event (.press (.char 'a')))).redraws =
        some m := by
  refine (obey_redraws (s := reach default default [.event .listen]) rfl
    (.event (.press (.char 'a')))).1 id fun hsame => ?_
  exact absurd hsame.input (by decide +kernel)

/-- A printed line and a command line each change the output, and the host is told of neither. -/
theorem redraws_missed :
    (reach default default [.event .listen]).redraws = some 0 ∧
      (reach default default [.event .listen, .println "note"]).lines ≠
        (reach default default [.event .listen]).lines ∧
      (reach default default [.event .listen, .println "note"]).redraws = some 0 ∧
      (reach default default [.event .listen, .println "note", .event (.launch "echo hi")]).lines ≠
        (reach default default [.event .listen, .println "note"]).lines ∧
      (reach default default [.event .listen, .println "note", .event (.launch "echo hi")]).redraws =
        some 0 := by
  decide +kernel

end PocketTerminal.Session
