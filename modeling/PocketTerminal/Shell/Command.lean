import PocketTerminal.Config.Messages
import PocketTerminal.Fault
import PocketTerminal.Files.Seeds
import PocketTerminal.Programs.Kind
import PocketTerminal.Table

/-! # Commands

A command gets its arguments and the state of the shell, and answers with a reply or a
fault beside the state it leaves. It leaves a state also where it fails. -/
namespace PocketTerminal.Shell

open Files (Store)

inductive Reply where
  /-- Text to show, one line of the terminal for each of its lines. -/
  | text (text : String)
  | silent
  /-- All output so far is to go. -/
  | clear
  /-- The host page is to show a section. -/
  | navigate (pageSection : String)
  | launch (kind : ProgramKind) (launch : Launch)
deriving DecidableEq, Repr

/-- The state of the shell that a command may read or change. -/
structure Environment where
  files : Store
  vars : Table String
  aliases : Table String
  /-- The command lines so far, the oldest first. -/
  history : List String
  messages : Messages

namespace Environment

def refuse {α : Type} (env : Environment) (message : Message)
    (pairs : List (String × String)) : Except Fault α :=
  .error (.refused (env.messages.say message pairs))

def usageFault {α : Type} (env : Environment) (usage : String) : Except Fault α :=
  env.refuse .usage [("usage", usage)]

end Environment

structure Command where
  name : String
  description : String
  usage : String
  /-- The group under which the list of commands shows the command. -/
  category : String := "general"
  run : List String → Environment → Except Fault Reply × Environment

def reading (answer : List String → Environment → Except Fault Reply)
    (args : List String) (env : Environment) : Except Fault Reply × Environment :=
  (answer args env, env)

def Reply.lines (lines : List String) : Reply := .text (Text.unlines lines)

def Reply.report (lines : List String) : Reply :=
  if lines.isEmpty then .silent else .lines lines

end PocketTerminal.Shell
