import PocketTerminal.Proofs.Session.Display

/-! # Runs of a session

What a host and a user can do to a session, and what holds after any of it in any order. -/
namespace PocketTerminal.Session

open Chance (Stream)
open Shell (Command Environment)

inductive Event where
  | pressToken (token : String)
  | press (key : Key)
  | launch (line : String)
  | launchProgram (kind : ProgramKind) (launch : Launch)
  | exitProgram
  | tick (dt : Float32)
  | applyConfig (config : Config)
  | register (command : Command)
  | listen
  | render (w h : UInt32) (failing : Option Nat)

def perform (s : Session) : Event → Session
  | .pressToken token => s.pressToken token
  | .press key => s.press key
  | .launch line => s.launch line
  | .launchProgram kind launch => s.launchProgram kind launch
  | .exitProgram => s.exitProgram.2
  | .tick dt => s.tick dt
  | .applyConfig config => s.applyConfig config
  | .register command => s.register command
  | .listen => s.listen
  | .render w h failing => (s.render w h failing).2

def run (config : Config) (entropy : Stream) (events : List Event) : Session :=
  events.foldl perform (start config entropy)

variable {s : Session}

theorem displayed_start (config : Config) (entropy : Stream) : (start config entropy).Displayed :=
  displayed_pushPrompt _

theorem displayed_launchProgram (s : Session) (kind : ProgramKind) (launch : Launch) :
    (s.launchProgram kind launch).Displayed := by
  refine displayed_of_running (lines_launchProgram_length s kind launch) ?_
  simp only [Session.launchProgram, Session.notify, Option.isNone_some]

theorem Displayed.exitProgram (h : s.Displayed) : s.exitProgram.2.Displayed := by
  unfold Session.exitProgram
  split
  · exact (displayed_pushPrompt _).notify
  · exact h

theorem Displayed.applyConfig (h : s.Displayed) (config : Config) : (s.applyConfig config).Displayed := by
  unfold Session.applyConfig
  dsimp only
  refine Displayed.notify ?_
  split
  · refine displayed_syncPrompt ?_
    exact h.lines_le
  · next hrunning =>
    refine displayed_of_running ?_ (eq_false_of_ne_true hrunning)
    exact h.lines_le

theorem Displayed.tick (h : s.Displayed) (dt : Float32) : (s.tick dt).Displayed := by
  unfold Session.tick
  split
  · exact Displayed.notify (displayed_of_running h.lines_le rfl)
  · exact h

theorem Displayed.render (h : s.Displayed) (w height : UInt32) (failing : Option Nat) :
    (s.render w height failing).2.Displayed := by
  unfold Session.render
  split
  · exact displayed_of_running h.lines_le rfl
  · exact h

theorem Displayed.perform (h : s.Displayed) (event : Event) : (s.perform event).Displayed := by
  cases event with
  | pressToken token =>
    unfold Session.perform pressToken
    dsimp only
    split
    · exact h.press _
    · exact h
  | press key => exact h.press key
  | launch line => exact displayed_launch line h.lines_le
  | launchProgram kind launch => exact displayed_launchProgram s kind launch
  | exitProgram => exact h.exitProgram
  | tick dt => exact h.tick dt
  | applyConfig config => exact h.applyConfig config
  | register command => exact ⟨h.lines_le, h.prompted⟩
  | listen => exact ⟨h.lines_le, h.prompted⟩
  | render w height failing => exact h.render w height failing

theorem Displayed.foldl_perform (h : s.Displayed) (events : List Event) :
    (events.foldl Session.perform s).Displayed := by
  induction events generalizing s with
  | nil => exact h
  | cons event rest ih => exact ih (h.perform event)

theorem Bounded.seedDefaults (h : s.Bounded) : s.seedDefaults.Bounded := h.of_eq rfl rfl

theorem bounded_start (config : Config) (entropy : Stream) : (start config entropy).Bounded := by
  have hempty : Session.Bounded
      { config := config, files := Files.Store.ofSeeds config.files config.homePath,
        entropy := entropy } :=
    ⟨Nat.zero_le _, Shell.Registry.standard_keepsWithin _⟩
  exact (hempty.seedDefaults.foldl_println config.introLines).println _

/-- Commands that a host adds keep the history within its limit. -/
def Event.KeepsHistory (event : Event) : Prop :=
  ∀ command, event = .register command → command.KeepsWithin maxHistory

theorem Bounded.perform (h : s.Bounded) {event : Event} (hevent : event.KeepsHistory) :
    (s.perform event).Bounded := by
  cases event with
  | pressToken token =>
    unfold Session.perform pressToken
    dsimp only
    split
    · exact h.press _
    · exact h
  | press key => exact h.press key
  | launch line => exact h.launch line
  | launchProgram kind launch => exact h.launchProgram kind launch
  | exitProgram =>
    unfold Session.perform exitProgram
    dsimp only
    split
    · next t ht => exact (h.release? ht).of_eq rfl rfl
    · exact h
  | tick dt =>
    unfold Session.perform tick
    dsimp only
    split
    · exact h.of_eq rfl rfl
    · exact h
  | applyConfig config =>
    unfold Session.perform applyConfig
    dsimp only
    split <;> exact h.of_eq rfl rfl
  | register command => exact ⟨h.history_le, h.registry.register (hevent command rfl)⟩
  | listen => exact h.of_eq rfl rfl
  | render w height failing =>
    unfold Session.perform render
    dsimp only
    split
    · exact h.of_eq rfl rfl
    · exact h

theorem Bounded.foldl_perform (h : s.Bounded) {events : List Event}
    (hevents : ∀ event ∈ events, event.KeepsHistory) : (events.foldl Session.perform s).Bounded := by
  induction events generalizing s with
  | nil => exact h
  | cons event rest ih =>
    obtain ⟨hfirst, hrest⟩ := List.forall_mem_cons.mp hevents
    exact ih (h.perform hfirst) hrest

/-- After any events there are at most a hundred lines, the last of them the prompt with
the line being typed unless a program runs, and at most a hundred command lines unless a
command of the host has added some. -/
theorem run_displayed (config : Config) (entropy : Stream) (events : List Event) :
    (run config entropy events).Displayed ∧
      ((∀ event ∈ events, event.KeepsHistory) →
        (run config entropy events).history.length ≤ maxHistory) :=
  ⟨(displayed_start config entropy).foldl_perform events,
    fun hevents => ((bounded_start config entropy).foldl_perform hevents).history_le⟩

/-- A command that changes nothing may be added. -/
theorem run_displayed_echo :
    (run default default [.register Shell.Printing.echo, .launch "echo a"]).history.length ≤
      maxHistory := by
  refine (run_displayed default default [.register Shell.Printing.echo, .launch "echo a"]).2 ?_
  intro event hevent command he args env hle
  rcases List.mem_cons.mp hevent with rfl | hevent
  · cases he
    exact hle
  · rw [List.mem_singleton.mp hevent] at he
    cases he

/-- A command of a host that puts more into the history than it may hold. -/
def hoarder : Command where
  name := "hoard"
  description := "Fill the history"
  usage := "hoard"
  run _ env := (.ok .silent, { env with history := env.history ++ List.replicate 101 "note" })

/-- A command gets the history itself, and a command line takes away one entry at most. -/
theorem run_hoarder :
    maxHistory = 100 ∧ (run default default [.register hoarder, .launch "hoard"]).history.length = 102 ∧
      (run default default
        [.register hoarder, .launch "hoard", .launch "echo a"]).history.length = 102 := by
  decide +kernel

end PocketTerminal.Session
