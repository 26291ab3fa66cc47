import PocketTerminal.Config.Basic
import PocketTerminal.Programs.Program
import PocketTerminal.Shell.Builtins
import PocketTerminal.Shell.Words

/-! # The state of a session

A session owns the file system, the output, the line being typed, the history, variables
and aliases, and the running program. While the shell has the keyboard, the last line of
the output is the prompt with the line being typed. -/
namespace PocketTerminal

open Files (Store)
open Chance (Stream)

inductive Mode where
  | shell
  | editor
  | game
deriving DecidableEq, Repr

structure Session where
  config : Config
  registry : Shell.Registry := .standard
  files : Store
  /-- The output, the oldest line first. -/
  lines : List String := []
  /-- The line being typed. -/
  input : String := ""
  /-- The command lines, the oldest first. -/
  history : List String := []
  /-- The place in the history that the input was recalled from. -/
  recalled : Option Nat := none
  vars : Table String := .empty
  aliases : Table String := .empty
  running : Option Program := none
  /-- What the seeds of games without one are drawn from. -/
  entropy : Stream := default
  /-- How often the host was told to redraw, once it wants to know. -/
  redraws : Option Nat := none
  /-- The sections that the host was sent to, once it wants to know. -/
  visited : Option (List String) := none

namespace Session

def maxLines : Nat := 100

def maxHistory : Nat := 100

def keepLast {α : Type} (n : Nat) (items : List α) : List α := items.drop (items.length - n)

def mode (s : Session) : Mode :=
  match s.running with
  | none => .shell
  | some (.nano _) => .editor
  | some _ => .game

def notify (s : Session) : Session := { s with redraws := s.redraws.map (· + 1) }

/-- A line put behind the output, which loses its oldest line when it is full. -/
def println (s : Session) (line : String) : Session :=
  { s with lines := keepLast maxLines (s.lines ++ [line]) }

def prompt (s : Session) : String :=
  Text.fill s.config.prompt [("cwd", Path.display s.files.cwd s.files.home)]

def promptLine (s : Session) : String := s.prompt ++ s.input

def pushPrompt (s : Session) : Session := s.println s.promptLine

def syncPrompt (s : Session) : Session :=
  { s with lines := s.lines.dropLast ++ [s.promptLine] }

def say (s : Session) (message : Message) (pairs : List (String × String) := []) : String :=
  s.config.messages.say message pairs

def seedDefaults (s : Session) : Session :=
  let home := s.config.homePath
  { s with
    vars := ((s.vars.insert "HOME" home).insertNew "USER" (Path.fileName home)).insertNew
      "SHELL" "folio"
    aliases := if s.aliases.isEmpty then s.aliases.insert "ll" "ls -al" else s.aliases }

def start (config : Config) (entropy : Stream := default) : Session :=
  let s : Session :=
    { config := config, files := Store.ofSeeds config.files config.homePath, entropy := entropy }
  (config.introLines.foldl println s.seedDefaults).pushPrompt

/-- Another configuration, with the file system built anew. Variables and aliases stay,
and the working directory does where it is still one. -/
def applyConfig (s : Session) (config : Config) : Session :=
  let s := { s with files := s.files.rebuild config.files config.homePath, config := config }
  let s := s.seedDefaults
  (if s.running.isNone then s.syncPrompt else s).notify

def register (s : Session) (command : Shell.Command) : Session :=
  { s with registry := s.registry.register command }

def listen (s : Session) : Session := { s with redraws := some 0, visited := some [] }

end Session
end PocketTerminal
