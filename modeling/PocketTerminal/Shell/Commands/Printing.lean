import PocketTerminal.Shell.Arguments
import PocketTerminal.Shell.Command
import PocketTerminal.Text.Numeral
import PocketTerminal.Text.Wildcard

/-! # Reading files

The commands that print texts or parts of them: `echo`, `cat`, `head`, `tail`, `wc` and
`grep`. -/
namespace PocketTerminal.Shell.Printing

open Files (Visit)

def echo : Command where
  name := "echo"
  description := "Print arguments"
  usage := "echo [text...]"
  category := "text"
  run := reading fun args _ => .ok (.text (String.intercalate " " args))

/-- The text of a file, or what keeps it from being one. -/
def textOf (env : Environment) (target : String) : Except (Message × String × String) String :=
  match env.files.get? target with
  | none => .error (.fileNotFound, "file", target)
  | some e =>
    match e.content? with
    | none => .error (.isADirectory, "path", target)
    | some text => .ok text

def textOrMessage (env : Environment) (target : String) : String :=
  match textOf env target with
  | .ok text => text
  | .error (message, key, value) => env.messages.say message [(key, value)]

def cat : Command where
  name := "cat"
  description := "Print file contents"
  usage := "cat <file...>"
  category := "filesystem"
  run := reading fun args env =>
    if args.isEmpty then env.refuse .missingOperand [("command", "cat")]
    else .ok (.lines (args.map (textOrMessage env)))

def withText (env : Environment) (target : String) (reply : String → Reply) :
    Except Fault Reply :=
  match textOf env target with
  | .ok text => .ok (reply text)
  | .error (message, key, value) => env.refuse message [(key, value)]

/-- A file and a number of lines, which is ten unless a flag says otherwise. -/
def countAndFile? : List String → Option (Nat × String)
  | [file] => some (10, file)
  | ["-n", count, file] => (Text.word64? count).map fun n => (n.toNat, file)
  | _ => none

def someLines (usage : String) (choose : Nat → List String → List String)
    (args : List String) (env : Environment) : Except Fault Reply :=
  match countAndFile? args with
  | none => env.usageFault usage
  | some (count, file) => withText env file fun text => .lines (choose count (Text.lines text))

def head : Command where
  name := "head"
  description := "Show first N lines of a file"
  usage := "head [-n N] <file>"
  category := "text"
  run := reading (someLines "head [-n N] <file>" List.take)

def tail : Command where
  name := "tail"
  description := "Show last N lines of a file"
  usage := "tail [-n N] <file>"
  category := "text"
  run := reading (someLines "tail [-n N] <file>" fun count lines =>
    lines.drop (lines.length - count))

def runWc (args : List String) (env : Environment) : Except Fault Reply :=
  match args with
  | [file] => withText env file fun text =>
    .text (String.intercalate " " [toString (Text.lines text).length,
      toString (Text.words text).length, toString (Text.width text), file])
  | _ => env.usageFault "wc <file>"

def wc : Command where
  name := "wc"
  description := "Count lines, words, and characters"
  usage := "wc <file>"
  category := "text"
  run := reading runWc

section Grep
variable (lib : Text.PatternLibrary)

def fileHits (pattern : lib.Pattern) (v : Visit) : List String :=
  match v.entry.content? with
  | none => []
  | some text =>
    ((Text.lines text).zipIdx 1).filterMap fun (line, n) =>
      if lib.isMatch pattern line then some (v.path ++ ":" ++ toString n ++ ":" ++ line)
      else none

def targetHits (env : Environment) (recursive : Bool) (pattern : lib.Pattern) (target : String) :
    List String :=
  match env.files.walk target with
  | [] => [env.messages.say .fileNotFound [("file", target)]]
  | start :: below =>
    if start.entry.isDirectory && !recursive then []
    else (start :: below).flatMap (fileHits lib pattern)

def grepUsage : String := "grep [-i] [-r] <pattern> <path...>"

def runGrep (args : List String) (env : Environment) : Except Fault Reply :=
  let parsed := Arguments.parse args
  match parsed.positional with
  | text :: target :: targets =>
    match lib.compile? (Text.linePattern lib (parsed.has 'i') text) with
    | some pattern =>
      let recursive := parsed.has 'r' || parsed.has 'R'
      .ok (.report ((target :: targets).flatMap (targetHits lib env recursive pattern)))
    | none => env.usageFault grepUsage
  | _ => env.usageFault grepUsage

def grep : Command where
  name := "grep"
  description := "Search file contents"
  usage := grepUsage
  category := "text"
  run := reading (runGrep lib)

end Grep

end PocketTerminal.Shell.Printing
