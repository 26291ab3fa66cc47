import PocketTerminal.Shell.Command
import PocketTerminal.Text.Numeral

/-! # The registry of commands

Commands by name. The registry answers `help` and `which` itself, because these need the
registry, and knows of `exit`, which only a session can carry out. -/
namespace PocketTerminal.Shell

structure Registry where
  commands : Table Command := .empty

namespace Registry

def empty : Registry := {}

instance : Inhabited Registry := ⟨empty⟩

def builtins : List (String × String) :=
  [("exit", "Leave the running program"), ("help", "List commands or describe one"),
   ("which", "Show what a command name refers to")]

def register (r : Registry) (c : Command) : Registry := ⟨r.commands.insert c.name c⟩

def get? (r : Registry) (name : String) : Option Command := r.commands.get? name

def contains (r : Registry) (name : String) : Bool :=
  r.commands.contains name || name == "help" || name == "which"

structure Listing where
  name : String
  description : String
  category : String

def listings (r : Registry) : List Listing :=
  builtins.map (fun b => ⟨b.1, b.2, "general"⟩) ++
    r.commands.values.map fun c => ⟨c.name, c.description, c.category⟩

def helpLine (l : Listing) : String :=
  "    " ++ Text.padRight 12 l.name ++ " " ++ l.description ++ "\n"

def helpGroup (all : List Listing) (category : String) : String :=
  "\n  [" ++ category ++ "]\n" ++
    String.join (((all.filter (·.category == category)).mergeSort
      fun a b => a.name ≤ b.name).map helpLine)

def helpAll (r : Registry) : String :=
  let all := r.listings
  let categories := ((all.map (·.category)).mergeSort fun a b => a ≤ b).eraseDups
  "Commands (" ++ toString all.length ++ "):\n" ++
    String.join (categories.map (helpGroup all)) ++ "\nType 'help <command>' for details."

def help (r : Registry) : List String → Except Fault Reply
  | [] => .ok (.text r.helpAll)
  | name :: _ =>
    let lowered := Text.lowerAscii name
    match r.get? lowered, builtins.lookup lowered with
    | some c, _ =>
      .ok (.text (c.name ++ " (" ++ c.category ++ ")\n  " ++ c.description ++
        "\n  Usage: " ++ c.usage))
    | none, some description =>
      .ok (.text (lowered ++ " (general)\n  " ++ description ++ "\n  Usage: " ++ lowered))
    | none, none => .error (.refused ("unknown command: " ++ name))

/-- What a name refers to: an alias before a built-in before a command. -/
def which (r : Registry) (args : List String) (env : Environment) : Except Fault Reply :=
  match args with
  | [] => env.usageFault "which <command>"
  | first :: _ =>
    let name := Text.lowerAscii first
    match env.aliases.get? name with
    | some expansion => .ok (.text (name ++ ": aliased to '" ++ expansion ++ "'"))
    | none =>
      if (builtins.lookup name).isSome then .ok (.text (name ++ ": shell built-in"))
      else
        match r.get? name with
        | some c => .ok (.text (c.name ++ ": " ++ c.description ++ " (" ++ c.category ++ ")"))
        | none => .error (.refused (name ++ ": not found"))

def dispatch (r : Registry) (name : String) (args : List String) (env : Environment) :
    Option (Except Fault Reply × Environment) :=
  if name = "help" then some (r.help args, env)
  else if name = "which" then some (r.which args env, env)
  else (r.get? name).map fun c => c.run args env

def list (r : Registry) : List (String × String) :=
  r.commands.values.map fun c => (c.name, c.description)

def sortedNames (names : List String) : List String :=
  (names.mergeSort fun a b => a ≤ b).eraseDups

/-- The names of commands and built-ins that a text begins, letter case aside. -/
def completions (r : Registry) (partialName : String) : List String :=
  let lowered := Text.lowerAscii partialName
  sortedNames ((r.commands.names ++ builtins.map Prod.fst).filter (Text.begins lowered))

end Registry
end PocketTerminal.Shell
