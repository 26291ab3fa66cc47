import PocketTerminal.Shell.Arguments
import PocketTerminal.Shell.Command

/-! # Changing the file system

The commands that create, remove and move: `mkdir`, `touch`, `rm`, `rmdir`, `mv` and
`cp`. Those that take many targets go on after a target that fails, and report the
failures together. -/
namespace PocketTerminal.Shell.Arrange

open Files (Store)

def forEach (change : Store → String → Option String × Store) (files : Store) :
    List String → List String × Store
  | [] => ([], files)
  | target :: rest =>
    let (failure, files) := change files target
    let (failures, files) := forEach change files rest
    (failure.toList ++ failures, files)

def onTargets (name : String) (change : Messages → Store → String → Option String × Store)
    (targets : List String) (env : Environment) : Except Fault Reply × Environment :=
  if targets.isEmpty then (env.refuse .missingOperand [("command", name)], env)
  else
    let (failures, files) := forEach (change env.messages) env.files targets
    (.ok (.report failures), { env with files := files })

def makeDirectory (recursive : Bool) (messages : Messages) (files : Store) (target : String) :
    Option String × Store :=
  match files.createDir target recursive with
  | (true, files) => (none, files)
  | (false, files) =>
    let message := if (files.get? target).isSome then .alreadyExists else .cannotCreate
    (some (messages.say message [("path", target)]), files)

def mkdir : Command where
  name := "mkdir"
  description := "Create directories"
  usage := "mkdir [-p] <dir...>"
  category := "filesystem"
  run args env :=
    let parsed := Arguments.parse args
    onTargets "mkdir" (makeDirectory (parsed.has 'p')) parsed.positional env

/-- What is there already is left alone. -/
def touchFile (messages : Messages) (files : Store) (target : String) :
    Option String × Store :=
  if (files.get? target).isSome then (none, files)
  else
    match files.createFile target "" with
    | (true, files) => (none, files)
    | (false, files) => (some (messages.say .cannotCreate [("path", target)]), files)

def touch : Command where
  name := "touch"
  description := "Create empty files"
  usage := "touch <file...>"
  category := "filesystem"
  run := onTargets "touch" touchFile

def removeTarget (recursive force : Bool) (messages : Messages) (files : Store)
    (target : String) : Option String × Store :=
  match files.remove target recursive with
  | (.removed _, files) => (none, files)
  | (.notEmpty, files) => (some (messages.say .isADirectory [("path", target)]), files)
  | (.notFound, files) =>
    (if force then none else some (messages.say .fileNotFound [("file", target)]), files)
  | (.protectedRoot, files) => (some (messages.say .notPermitted [("path", target)]), files)

def rm : Command where
  name := "rm"
  description := "Remove files or directories"
  usage := "rm [-r] [-f] <path...>"
  category := "filesystem"
  run args env :=
    let parsed := Arguments.parse args
    onTargets "rm" (removeTarget (parsed.has 'r' || parsed.has 'R') (parsed.has 'f'))
      parsed.positional env

def removeDirectory (messages : Messages) (files : Store) (target : String) :
    Option String × Store :=
  match files.get? target with
  | none => (some (messages.say .fileNotFound [("file", target)]), files)
  | some e =>
    if !e.isDirectory then (some (messages.say .notADirectory [("path", target)]), files)
    else
      match files.remove target false with
      | (.removed _, files) => (none, files)
      | (.notEmpty, files) => (some (messages.say .directoryNotEmpty [("path", target)]), files)
      | (.notFound, files) => (some (messages.say .fileNotFound [("file", target)]), files)
      | (.protectedRoot, files) => (some (messages.say .notPermitted [("path", target)]), files)

def rmdir : Command where
  name := "rmdir"
  description := "Remove empty directories"
  usage := "rmdir <dir...>"
  category := "filesystem"
  run := onTargets "rmdir" removeDirectory

def transfer (usage : String) (failure : Message)
    (change : Store → String → String → Bool × Store) (args : List String)
    (env : Environment) : Except Fault Reply × Environment :=
  match args with
  | [source, destination] =>
    if (env.files.get? source).isNone then
      (env.refuse .fileNotFound [("file", source)], env)
    else
      match change env.files source destination with
      | (true, files) => (.ok .silent, { env with files := files })
      | (false, files) =>
        let env := { env with files := files }
        (env.refuse failure [("src", source), ("dest", destination)], env)
  | _ => (env.usageFault usage, env)

def mv : Command where
  name := "mv"
  description := "Move or rename a file or directory"
  usage := "mv <source> <dest>"
  category := "filesystem"
  run := transfer "mv <source> <dest>" .cannotMove Store.move

/-- Directories are always copied whole, so the flag for it changes nothing. -/
def cp : Command where
  name := "cp"
  description := "Copy a file or directory tree"
  usage := "cp [-r] <source> <dest>"
  category := "filesystem"
  run args := transfer "cp [-r] <source> <dest>" .cannotCopy Store.copy
    (Arguments.parse args).positional

end PocketTerminal.Shell.Arrange
