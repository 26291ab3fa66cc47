import PocketTerminal.Text.Template

/-! # Message templates of a configuration

Each message of the terminal has a name, which a configuration uses to set it, and a
usual template. -/
namespace PocketTerminal

inductive Message where
  | commandNotFound
  | fileNotFound
  | noSuchDirectory
  | notADirectory
  | isADirectory
  | directoryNotEmpty
  | notPermitted
  | alreadyExists
  | cannotCreate
  | cannotMove
  | cannotCopy
  | missingOperand
  | usage
  | syntaxError
  | noManualEntry
  | historyCleared
  | noHistory
  | noAliases
  | notAliased
  | launching
  | programTerminated
  | programExited
  | nothingToExit
  | navigating
  | noSuchSection
deriving DecidableEq, Repr

namespace Message

def name : Message → String
  | commandNotFound => "command_not_found"
  | fileNotFound => "file_not_found"
  | noSuchDirectory => "no_such_directory"
  | notADirectory => "not_a_directory"
  | isADirectory => "is_a_directory"
  | directoryNotEmpty => "directory_not_empty"
  | notPermitted => "not_permitted"
  | alreadyExists => "already_exists"
  | cannotCreate => "cannot_create"
  | cannotMove => "cannot_move"
  | cannotCopy => "cannot_copy"
  | missingOperand => "missing_operand"
  | usage => "usage"
  | syntaxError => "syntax_error"
  | noManualEntry => "no_manual_entry"
  | historyCleared => "history_cleared"
  | noHistory => "no_history"
  | noAliases => "no_aliases"
  | notAliased => "not_aliased"
  | launching => "launching"
  | programTerminated => "program_terminated"
  | programExited => "program_exited"
  | nothingToExit => "nothing_to_exit"
  | navigating => "navigating"
  | noSuchSection => "no_such_section"

def usual : Message → String
  | commandNotFound => "\x7bcommand\x7d: command not found"
  | fileNotFound => "\x7bfile\x7d: No such file or directory"
  | noSuchDirectory => "\x7bdir\x7d: No such directory"
  | notADirectory => "\x7bpath\x7d: Not a directory"
  | isADirectory => "\x7bpath\x7d: Is a directory"
  | directoryNotEmpty => "\x7bpath\x7d: Directory not empty"
  | notPermitted => "\x7bpath\x7d: Operation not permitted"
  | alreadyExists => "\x7bpath\x7d: File exists"
  | cannotCreate => "\x7bpath\x7d: Cannot create"
  | cannotMove => "cannot move \x7bsrc\x7d to \x7bdest\x7d"
  | cannotCopy => "cannot copy \x7bsrc\x7d to \x7bdest\x7d"
  | missingOperand => "\x7bcommand\x7d: missing operand"
  | usage => "usage: \x7busage\x7d"
  | syntaxError => "syntax error: \x7bdetail\x7d"
  | noManualEntry => "No manual entry for \x7btopic\x7d"
  | historyCleared => "History cleared."
  | noHistory => "(no history)"
  | noAliases => "(no aliases defined)"
  | notAliased => "\x7bname\x7d: not aliased"
  | launching => "Starting \x7bprogram\x7d. Press Escape to quit."
  | programTerminated => "[\x7bprogram\x7d terminated]"
  | programExited => "[\x7bprogram\x7d exited]"
  | nothingToExit => "exit: already at the shell"
  | navigating => "Opening \x7bsection\x7d..."
  | noSuchSection => "\x7bsection\x7d: No such section"

def all : List Message :=
  [commandNotFound, fileNotFound, noSuchDirectory, notADirectory, isADirectory,
   directoryNotEmpty, notPermitted, alreadyExists, cannotCreate, cannotMove, cannotCopy,
   missingOperand, usage, syntaxError, noManualEntry, historyCleared, noHistory, noAliases,
   notAliased, launching, programTerminated, programExited, nothingToExit, navigating,
   noSuchSection]

end Message

structure Messages where
  template : Message → String := Message.usual

namespace Messages

instance : Inhabited Messages := ⟨{}⟩

def set (m : Messages) (message : Message) (template : String) : Messages :=
  ⟨fun other => if other = message then template else m.template other⟩

def say (m : Messages) (message : Message) (pairs : List (String × String) := []) : String :=
  Text.fill (m.template message) pairs

end Messages
end PocketTerminal
