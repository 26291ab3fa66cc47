import Mathlib.Data.List.Induction
import PocketTerminal.Proofs.Session.Outcomes

/-! # What is written to the output

Every call writes to the output step by step: printed lines, prompts, and the prompt in the
place of the last line. The output is what all that was written since the start leaves. -/
namespace PocketTerminal.Session

open Chance (Stream)
open Shell (Reply)

inductive Write where
  /-- A line of output. -/
  | print (line : String)
  /-- The prompt and the line being typed, behind the output. -/
  | prompt (line : String)
  /-- The prompt in the place of the last line. -/
  | rewrite (line : String)
  | clear
deriving DecidableEq

namespace Write

def apply (lines : List String) : Write → List String
  | print line | prompt line => keepLast maxLines (lines ++ [line])
  | rewrite line => lines.dropLast ++ [line]
  | clear => []

def adds : Write → Bool
  | print _ | prompt _ => true
  | rewrite _ | clear => false

end Write

def closingLine? (s : Session) (notice : Message) : Option String :=
  s.running.map fun program => s.say notice [("program", program.name)]

def replyWrites (s : Session) : Reply → List Write
  | .text text => (Text.pieces '\n' text).map .print
  | .silent => []
  | .clear => [.clear]
  | .navigate pageSection => [.print (s.say .navigating [("section", pageSection)])]
  | .launch kind _ => [.print (s.say .launching [("program", kind.command)])]

def outcomeWrites (s : Session) : Outcome → List Write
  | .nothing => []
  | .refusal line => [.print line]
  | .reply reply => s.replyWrites reply
  | .leave => [.print ((s.closingLine? .programExited).getD (s.say .nothingToExit))]

def promptWrites (s : Session) : List Write :=
  if s.running.isNone then [.prompt s.promptLine] else []

def lineWrites (s : Session) (line : String) : List Write :=
  (s.outcome line).2.outcomeWrites (s.outcome line).1 ++ (s.runLine line).promptWrites

def programKeyWrites (s : Session) (key : Key) : List Write :=
  if key = .escape then
    ((s.closingLine? .programTerminated).map Write.print).toList ++ [.prompt s.promptLine]
  else []

def shellKeyWrites (s : Session) : Key → List Write
  | .enter => { s with input := "", recalled := none }.lineWrites s.input
  | .escape | .arrowLeft | .arrowRight => []
  | key => [.rewrite (s.pressShell key).promptLine]

def keyWrites (s : Session) (key : Key) : List Write :=
  if s.running.isSome then s.programKeyWrites key else s.shellKeyWrites key

def exitWrites (s : Session) : List Write :=
  match s.closingLine? .programExited with
  | some line => [.print line, .prompt s.promptLine]
  | none => []

def callWrites (s : Session) : Call → List Write
  | .println line => [.print line]
  | .event (.pressToken token) => ((Key.parse token).map s.keyWrites).getD []
  | .event (.press key) => s.keyWrites key
  | .event (.launch line) => s.lineWrites line
  | .event (.launchProgram kind _) => [.print (s.say .launching [("program", kind.command)])]
  | .event .exitProgram => s.exitWrites
  | .event (.applyConfig config) =>
    if s.running.isNone then [.rewrite (s.applyConfig config).promptLine] else []
  | .event (.tick _) | .event (.register _) | .event .listen | .event (.render ..) => []

def startWrites (config : Config) (entropy : Stream) : List Write :=
  config.introLines.map .print ++ [.prompt (start config entropy).promptLine]

def laterWrites (s : Session) : List Call → List Write
  | [] => []
  | call :: rest => s.callWrites call ++ (s.obey call).laterWrites rest

def transcript (config : Config) (entropy : Stream) (calls : List Call) : List Write :=
  startWrites config entropy ++ (start config entropy).laterWrites calls

variable {s t : Session}

def Wrote (s : Session) (writes : List Write) (t : Session) : Prop :=
  t.lines = writes.foldl Write.apply s.lines

theorem wrote_nothing (h : t.lines = s.lines) : s.Wrote [] t := h

theorem wrote_println (s : Session) (line : String) : s.Wrote [.print line] (s.println line) := by
  simp only [Wrote, println, List.foldl_cons, List.foldl_nil, Write.apply]

theorem wrote_pushPrompt (s : Session) : s.Wrote [.prompt s.promptLine] s.pushPrompt := by
  simp only [Wrote, pushPrompt, println, List.foldl_cons, List.foldl_nil, Write.apply]

theorem wrote_syncPrompt (s : Session) : s.Wrote [.rewrite s.promptLine] s.syncPrompt := by
  simp only [Wrote, syncPrompt, List.foldl_cons, List.foldl_nil, Write.apply]

theorem Wrote.trans {u : Session} {first second : List Write} (h : s.Wrote first t)
    (h' : t.Wrote second u) : s.Wrote (first ++ second) u := by
  rw [Wrote, List.foldl_append, ← h]
  exact h'

/-- What is written depends on nothing but the lines before, and shows in the lines after. -/
theorem Wrote.congr {s' t' : Session} {writes : List Write} (h : s.Wrote writes t)
    (hs : s'.lines = s.lines) (ht : t'.lines = t.lines) : s'.Wrote writes t' := by
  rw [Wrote, hs, ht]
  exact h

theorem wrote_foldl_println (s : Session) (lines : List String) :
    s.Wrote (lines.map .print) (lines.foldl println s) := by
  induction lines generalizing s with
  | nil => exact wrote_nothing rfl
  | cons line rest ih => exact (wrote_println s line).trans (ih (s.println line))

theorem name_create (kind : ProgramKind) (launch : Launch) (free : Stream) :
    (Program.create kind launch free).name = kind.command := by
  cases kind <;> rfl

theorem wrote_launchProgram (s : Session) (kind : ProgramKind) (launch : Launch) :
    s.Wrote [.print (s.say .launching [("program", kind.command)])] (s.launchProgram kind launch) := by
  simp only [launchProgram, name_create]
  exact (wrote_println s _).congr rfl rfl

theorem wrote_applyReply (s : Session) (reply : Reply) :
    s.Wrote (s.replyWrites reply) (s.applyReply reply) := by
  cases reply with
  | text text => exact wrote_foldl_println s _
  | silent => exact wrote_nothing rfl
  | clear => rfl
  | navigate pageSection => exact (wrote_println s _).congr rfl rfl
  | launch kind launch => exact wrote_launchProgram s kind launch

theorem exists_release? {program : Program} (hrunning : s.running = some program)
    (notice : Message) : ∃ t, s.release? notice = some t :=
  ⟨_, by rw [release?, hrunning]; rfl⟩

theorem wrote_release? {notice : Message} (h : s.release? notice = some t) :
    ∃ line, s.closingLine? notice = some line ∧ s.Wrote [.print line] t ∧
      t.promptLine = s.promptLine := by
  obtain ⟨program, hrunning, rfl⟩ := Option.map_eq_some_iff.mp h
  refine ⟨_, ?_, (wrote_println s _).congr rfl rfl, rfl⟩
  rw [closingLine?, hrunning]
  rfl

theorem closingLine?_eq_none {notice : Message} (h : s.release? notice = none) :
    s.closingLine? notice = none :=
  Option.map_eq_none_iff.mpr (Option.map_eq_none_iff.mp h)

theorem wrote_exit (s : Session) :
    s.Wrote [.print ((s.closingLine? .programExited).getD (s.say .nothingToExit))] s.exit := by
  unfold exit
  split
  · next t ht =>
    obtain ⟨line, hline, hwrote, -⟩ := wrote_release? ht
    rw [hline]
    exact hwrote
  · next hnone =>
    rw [closingLine?_eq_none hnone]
    exact wrote_println s _

theorem wrote_display (s : Session) (outcome : Outcome) :
    s.Wrote (s.outcomeWrites outcome) (s.display outcome) := by
  cases outcome with
  | nothing => exact wrote_nothing rfl
  | refusal line => exact wrote_println s line
  | reply reply => exact wrote_applyReply s reply
  | leave => exact wrote_exit s

theorem wrote_launch (s : Session) (line : String) : s.Wrote (s.lineWrites line) (s.launch line) := by
  have hrun : s.Wrote ((s.outcome line).2.outcomeWrites (s.outcome line).1) (s.runLine line) := by
    rw [runLine_eq]
    obtain ⟨files, vars, aliases, history, hserved⟩ := served_outcome s line
    refine (wrote_display (s.outcome line).2 (s.outcome line).1).congr ?_ rfl
    rw [hserved]
  refine hrun.trans ?_
  unfold promptWrites launch
  dsimp only
  split
  · exact wrote_pushPrompt _
  · exact wrote_nothing rfl

theorem wrote_pressProgram {program : Program} (hrunning : s.running = some program) (key : Key) :
    s.Wrote (s.programKeyWrites key) (s.pressProgram program key) := by
  unfold programKeyWrites pressProgram
  split
  · obtain ⟨t, ht⟩ := exists_release? hrunning .programTerminated
    obtain ⟨line, hline, hwrote, hprompt⟩ := wrote_release? ht
    rw [hline, ht, ← hprompt]
    exact (hwrote.trans (wrote_pushPrompt t)).congr rfl rfl
  · exact wrote_nothing rfl

theorem wrote_edited {key : Key} (hedited : s.Edited t)
    (hkey : s.pressShell key = t.syncPrompt.notify) :
    s.Wrote [.rewrite (s.pressShell key).promptLine] (s.pressShell key) := by
  obtain ⟨input, recalled, rfl⟩ := hedited
  have hwrote := wrote_syncPrompt { s with input := input, recalled := recalled }
  rw [hkey]
  exact hwrote.congr rfl rfl

theorem wrote_pressShell (s : Session) (key : Key) :
    s.Wrote (s.shellKeyWrites key) (s.pressShell key) := by
  cases key with
  | enter => exact (wrote_launch { s with input := "", recalled := none } s.input).congr rfl rfl
  | backspace => exact wrote_edited ⟨_, s.recalled, rfl⟩ rfl
  | char c => exact wrote_edited ⟨_, s.recalled, rfl⟩ rfl
  | arrowUp => exact wrote_edited s.edited_recallOlder rfl
  | arrowDown => exact wrote_edited s.edited_recallNewer rfl
  | tab => exact wrote_edited s.edited_complete rfl
  | escape | arrowLeft | arrowRight => exact wrote_nothing rfl

theorem wrote_press (s : Session) (key : Key) : s.Wrote (s.keyWrites key) (s.press key) := by
  unfold keyWrites press
  cases hrunning : s.running with
  | none => exact wrote_pressShell s key
  | some program => exact wrote_pressProgram hrunning key

theorem wrote_pressToken (s : Session) (token : String) :
    s.Wrote (((Key.parse token).map s.keyWrites).getD []) (s.pressToken token) := by
  unfold pressToken
  cases Key.parse token with
  | none => exact wrote_nothing rfl
  | some key => exact wrote_press s key

theorem wrote_exitProgram (s : Session) : s.Wrote s.exitWrites s.exitProgram.2 := by
  unfold exitWrites exitProgram
  cases hrelease : s.release? .programExited with
  | none =>
    rw [closingLine?_eq_none hrelease]
    exact wrote_nothing rfl
  | some t =>
    obtain ⟨line, hline, hwrote, hprompt⟩ := wrote_release? hrelease
    rw [hline, ← hprompt]
    exact (hwrote.trans (wrote_pushPrompt t)).congr rfl rfl

theorem applyConfig_of_shell (hrunning : s.running = none) (config : Config) :
    ∃ t : Session, t.lines = s.lines ∧ s.applyConfig config = t.syncPrompt.notify := by
  refine ⟨Session.seedDefaults
    { s with files := s.files.rebuild config.files config.homePath, config := config }, rfl, ?_⟩
  simp only [applyConfig, seedDefaults, hrunning, Option.isNone_none, if_true]

theorem wrote_applyConfig (s : Session) (config : Config) :
    s.Wrote (if s.running.isNone then [.rewrite (s.applyConfig config).promptLine] else [])
      (s.applyConfig config) := by
  cases hrunning : s.running with
  | none =>
    obtain ⟨t, hlines, happly⟩ := applyConfig_of_shell hrunning config
    rw [happly]
    exact (wrote_syncPrompt t).congr hlines.symm rfl
  | some program =>
    simp only [applyConfig, seedDefaults, hrunning, Option.isNone_some]
    exact wrote_nothing rfl

theorem lines_tick (s : Session) (dt : Float32) : (s.tick dt).lines = s.lines := by
  unfold tick
  split <;> rfl

theorem lines_render (s : Session) (w h : UInt32) (failing : Option Nat) :
    (s.render w h failing).2.lines = s.lines := by
  unfold render
  split <;> rfl

theorem wrote_obey (s : Session) (call : Call) : s.Wrote (s.callWrites call) (s.obey call) := by
  cases call with
  | println line => exact wrote_println s line
  | event event =>
    cases event with
    | pressToken token => exact wrote_pressToken s token
    | press key => exact wrote_press s key
    | launch line => exact wrote_launch s line
    | launchProgram kind launch => exact wrote_launchProgram s kind launch
    | exitProgram => exact wrote_exitProgram s
    | applyConfig config => exact wrote_applyConfig s config
    | tick dt => exact wrote_nothing (s.lines_tick dt)
    | register command => exact wrote_nothing rfl
    | listen => exact wrote_nothing rfl
    | render w h failing => exact wrote_nothing (s.lines_render w h failing)

theorem laterWrites_concat (s : Session) (calls : List Call) (call : Call) :
    s.laterWrites (calls ++ [call]) = s.laterWrites calls ++ (calls.foldl obey s).callWrites call := by
  induction calls generalizing s with
  | nil => exact List.append_nil _
  | cons first rest ih =>
    rw [List.cons_append, laterWrites, laterWrites, ih, List.foldl_cons, List.append_assoc]

theorem transcript_concat (config : Config) (entropy : Stream) (calls : List Call) (call : Call) :
    transcript config entropy (calls ++ [call]) =
      transcript config entropy calls ++ (reach config entropy calls).callWrites call := by
  rw [transcript, laterWrites_concat, ← List.append_assoc]
  rfl

theorem lines_start (config : Config) (entropy : Stream) :
    (start config entropy).lines = (startWrites config entropy).foldl Write.apply [] := by
  have hgreeting := wrote_foldl_println
    (seedDefaults
      { config := config, files := Files.Store.ofSeeds config.files config.homePath, entropy := entropy })
    config.introLines
  exact hgreeting.trans (wrote_pushPrompt _)

theorem lines_reach (config : Config) (entropy : Stream) (calls : List Call) :
    (reach config entropy calls).lines = (transcript config entropy calls).foldl Write.apply [] := by
  induction calls using List.reverseRecOn with
  | nil =>
    rw [transcript, laterWrites, List.append_nil]
    exact lines_start config entropy
  | append_singleton calls call ih =>
    rw [reach_concat, transcript_concat, List.foldl_append, ← ih]
    exact wrote_obey _ call

end PocketTerminal.Session
