import PocketTerminal.Shell.Command
import PocketTerminal.Text.Numeral

/-! # What a session remembers

The commands on the output, the history, the variables and the aliases: `clear`,
`history`, `whoami`, `env`, `export`, `unset`, `alias` and `unalias`. -/
namespace PocketTerminal.Shell.Memory

def clear : Command where
  name := "clear"
  description := "Clear the terminal"
  usage := "clear"
  category := "shell"
  run := reading fun _ _ => .ok .clear

def whoami : Command where
  name := "whoami"
  description := "Print the current user"
  usage := "whoami"
  category := "shell"
  run := reading fun _ env => .ok (.text ((env.vars.get? "USER").getD "visitor"))

def historyLine (n : Nat) (line : String) : String :=
  Text.padLeft ' ' 4 (toString n) ++ "  " ++ line

def runHistory (args : List String) (env : Environment) : Except Fault Reply × Environment :=
  match args with
  | [] =>
    if env.history.isEmpty then (.ok (.text (env.messages.template .noHistory)), env)
    else
      (.ok (.lines ((env.history.zipIdx 1).map fun (line, n) => historyLine n line)), env)
  | ["-c"] =>
    (.ok (.text (env.messages.template .historyCleared)), { env with history := [] })
  | _ => (env.usageFault "history [-c]", env)

def history : Command where
  name := "history"
  description := "Show or clear command history"
  usage := "history [-c]"
  category := "shell"
  run := runHistory

def listVars (env : Environment) : Reply :=
  .report (env.vars.entries.map fun p => p.1 ++ "=" ++ p.2)

def env : Command where
  name := "env"
  description := "List shell variables"
  usage := "env"
  category := "shell"
  run := reading fun _ e => .ok (listVars e)

def validName (name : String) : Bool :=
  match name.toList with
  | [] => false
  | c :: cs => (c.isAlpha || c == '_') && cs.all Text.isNameChar

/-- One assignment carried out, if its name is valid. A name alone keeps the value that
it has. -/
def assign? (vars : Table String) (arg : String) : Option (Table String) :=
  match Text.cutAt '=' arg.toList with
  | some (name, value) =>
    let name := String.ofList name
    if validName name then some (vars.insert name (String.ofList value)) else none
  | none => if validName arg then some (vars.insertNew arg "") else none

/-- Assignments carried out up to the first that is none, with whether all were. -/
def assignAll (vars : Table String) : List String → Bool × Table String
  | [] => (true, vars)
  | arg :: rest =>
    match assign? vars arg with
    | some vars => assignAll vars rest
    | none => (false, vars)

def exportUsage : String := "export NAME=value..."

def runExport (args : List String) (e : Environment) : Except Fault Reply × Environment :=
  if args.isEmpty then (.ok (listVars e), e)
  else
    let (done, vars) := assignAll e.vars args
    (if done then .ok .silent else e.usageFault exportUsage, { e with vars := vars })

def exportCommand : Command where
  name := "export"
  description := "Set shell variables"
  usage := exportUsage
  category := "shell"
  run := runExport

def runUnset (args : List String) (e : Environment) : Except Fault Reply × Environment :=
  if args.isEmpty then (e.usageFault "unset NAME...", e)
  else (.ok .silent, { e with vars := args.foldl Table.erase e.vars })

def unset : Command where
  name := "unset"
  description := "Remove shell variables"
  usage := "unset NAME..."
  category := "shell"
  run := runUnset

/-- Without one pair of quotes around it, single or double, once it is trimmed. -/
def withoutQuotes (value : List Char) : List Char :=
  let value := Text.trimChars value
  let quotedBy (quote : Char) : Bool :=
    2 ≤ value.length && value.head? == some quote && value.getLast? == some quote
  if quotedBy '\'' || quotedBy '"' then (value.drop 1).dropLast else value

def aliasLine (name value : String) : String := "alias " ++ name ++ "='" ++ value ++ "'"

def aliasUsage : String := "alias [name[=value]]"

/-- The arguments are one definition, or the name of an alias to show. -/
def runAlias (args : List String) (e : Environment) : Except Fault Reply × Environment :=
  match args with
  | [] =>
    if e.aliases.isEmpty then (.ok (.text (e.messages.template .noAliases)), e)
    else (.ok (.lines (e.aliases.entries.map fun p => aliasLine p.1 p.2)), e)
  | first :: _ =>
    match Text.cutAt '=' (String.intercalate " " args).toList with
    | some (name, value) =>
      let name := Text.trimChars name
      if name.isEmpty || name.any Text.isBlank then (e.usageFault aliasUsage, e)
      else
        let value := String.ofList (withoutQuotes value)
        (.ok .silent, { e with aliases := e.aliases.insert (String.ofList name) value })
    | none =>
      match e.aliases.get? first with
      | some value => (.ok (.text (aliasLine first value)), e)
      | none => (e.refuse .notAliased [("name", first)], e)

def aliasCommand : Command where
  name := "alias"
  description := "Define or list command aliases"
  usage := aliasUsage
  category := "shell"
  run := runAlias

def dropAliases (aliases : Table String) : List String → List String × Table String
  | [] => ([], aliases)
  | name :: rest =>
    let (missing, left) := dropAliases (aliases.erase name) rest
    (if aliases.contains name then missing else name :: missing, left)

def runUnalias (args : List String) (e : Environment) : Except Fault Reply × Environment :=
  if args.isEmpty then (e.usageFault "unalias <name...>", e)
  else
    let (missing, left) := dropAliases e.aliases args
    (.ok (.report (missing.map fun name => e.messages.say .notAliased [("name", name)])),
      { e with aliases := left })

def unalias : Command where
  name := "unalias"
  description := "Remove command aliases"
  usage := "unalias <name...>"
  category := "shell"
  run := runUnalias

end PocketTerminal.Shell.Memory
