import PocketTerminal.Proofs.Session.Runs

/-! # What a command line comes to

A command line is decided before any of it is shown. It comes to nothing, to a line that
refuses it, to a command's reply, or to leaving the running program. -/
namespace PocketTerminal.Session

open Chance (Stream)
open Shell (Reply)

inductive Outcome where
  | nothing
  | refusal (line : String)
  | reply (reply : Reply)
  | leave

def wordsOutcome (s : Session) : List String → Outcome × Session
  | [] => (.nothing, s)
  | first :: args =>
    let name := Text.lower first
    match s.registry.dispatch name args s.environment with
    | some (.ok reply, env) => (.reply reply, s.absorb env)
    | some (.error fault, env) => (.refusal fault.message, s.absorb env)
    | none =>
      (if name = "exit" then .leave else .refusal (s.say .commandNotFound [("command", name)]), s)

def outcome (s : Session) (line : String) : Outcome × Session :=
  if Text.allBlank line then (.nothing, s)
  else
    let s := s.remember line
    match s.expand line with
    | .error fault => (.refusal (s.say .syntaxError [("detail", fault.message)]), s)
    | .ok words => s.wordsOutcome words

def display (s : Session) : Outcome → Session
  | .nothing => s
  | .refusal line => s.println line
  | .reply reply => s.applyReply reply
  | .leave => s.exit

theorem runWords_eq (s : Session) (words : List String) :
    s.runWords words = (s.wordsOutcome words).2.display (s.wordsOutcome words).1 := by
  cases words with
  | nil => rfl
  | cons first args =>
    simp only [runWords, wordsOutcome]
    cases s.registry.dispatch (Text.lower first) args s.environment with
    | none =>
      dsimp only
      split <;> rfl
    | some answer =>
      obtain ⟨_ | _, env⟩ := answer <;> rfl

theorem runLine_eq (s : Session) (line : String) :
    s.runLine line = (s.outcome line).2.display (s.outcome line).1 := by
  unfold runLine outcome
  split
  · rfl
  · dsimp only
    cases (s.remember line).expand line with
    | error fault => rfl
    | ok words => exact runWords_eq _ words

def Served (s t : Session) : Prop :=
  ∃ files vars aliases history,
    t = { s with files := files, vars := vars, aliases := aliases, history := history }

theorem served_wordsOutcome (s : Session) (words : List String) : s.Served (s.wordsOutcome words).2 := by
  unfold wordsOutcome
  split
  · exact ⟨_, _, _, _, rfl⟩
  · dsimp only
    split <;> exact ⟨_, _, _, _, rfl⟩

theorem served_outcome (s : Session) (line : String) : s.Served (s.outcome line).2 := by
  unfold outcome
  split
  · exact ⟨_, _, _, _, rfl⟩
  · dsimp only
    split
    · exact ⟨_, _, _, _, rfl⟩
    · obtain ⟨files, vars, aliases, history, hserved⟩ := served_wordsOutcome (s.remember line) _
      exact ⟨files, vars, aliases, history, hserved⟩

inductive Call where
  | println (line : String)
  | event (event : Event)

def obey (s : Session) : Call → Session
  | .println line => s.println line
  | .event event => s.perform event

def reach (config : Config) (entropy : Stream) (calls : List Call) : Session :=
  calls.foldl obey (start config entropy)

theorem reach_concat (config : Config) (entropy : Stream) (calls : List Call) (call : Call) :
    reach config entropy (calls ++ [call]) = (reach config entropy calls).obey call := by
  rw [reach, List.foldl_append]
  rfl

end PocketTerminal.Session
