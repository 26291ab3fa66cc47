import PocketTerminal.Shell.Arguments
import PocketTerminal.Shell.Command
import PocketTerminal.Text.Wildcard

/-! # Looking around in the file system

The commands that show or change the place in the tree: `ls`, `cd`, `pwd`, `tree` and
`find`. -/
namespace PocketTerminal.Shell

open Files (Entry Visit)

namespace Browse

def longLine (e : Entry) : String := (if e.isDirectory then "d " else "- ") ++ e.name

def listing (all long : Bool) (entries : List Entry) : Reply :=
  let visible := entries.filter fun e => all || !Text.begins "." e.name
  if visible.isEmpty then .silent
  else if long then .lines (visible.map longLine)
  else .text (String.intercalate "  " (visible.map (·.name)))

def runLs (args : List String) (env : Environment) : Except Fault Reply :=
  let parsed := Arguments.parse args
  let long := parsed.has 'l'
  let target := parsed.positional.head?
  match (target.bind env.files.get?).filter (!·.isDirectory) with
  | some e => .ok (.text (if long then longLine e else e.name))
  | none =>
    match env.files.list? target with
    | some entries => .ok (listing (parsed.has 'a') long entries)
    | none => env.refuse .noSuchDirectory [("dir", target.getD ".")]

def ls : Command where
  name := "ls"
  description := "List directory contents"
  usage := "ls [-a] [-l] [path]"
  category := "filesystem"
  run := reading runLs

def runCd (args : List String) (env : Environment) : Except Fault Reply × Environment :=
  let target := args.head?.getD "~"
  match env.files.changeDir target with
  | (true, files) => (.ok .silent, { env with files := files })
  | (false, files) =>
    let env := { env with files := files }
    if (files.get? target).isSome then (env.refuse .notADirectory [("path", target)], env)
    else (env.refuse .noSuchDirectory [("dir", target)], env)

def cd : Command where
  name := "cd"
  description := "Change working directory"
  usage := "cd [path]"
  category := "filesystem"
  run := runCd

def pwd : Command where
  name := "pwd"
  description := "Print working directory"
  usage := "pwd"
  category := "filesystem"
  run := reading fun _ env => .ok (.text env.files.cwd)

/-- Which visits of a walk are the last ones of their directories, beside a flag for each
depth: whether a later visit has a brother at that depth. -/
def lastFlags : List Visit → List Bool × List Bool
  | [] => ([], [])
  | v :: rest =>
    let (flags, after) := lastFlags rest
    let shallower := (after ++ List.replicate v.depth false).take v.depth
    ((!after[v.depth]?.getD false) :: flags, shallower ++ [true])

def branches (ancestorsLast : List Bool) (last : Bool) : String :=
  String.join (ancestorsLast.map fun done => if done then "    " else "│   ") ++
    (if last then "└── " else "├── ")

def treeLine (ancestorsLast : List Bool) (last : Bool) (e : Entry) : String :=
  branches ancestorsLast last ++ e.name ++ (if e.isDirectory then "/" else "")

def treeLines (ancestorsLast : List Bool) : List (Visit × Bool) → List String
  | [] => []
  | (v, last) :: rest =>
    let above := ancestorsLast.take (v.depth - 1)
    treeLine above last v.entry :: treeLines (above ++ [last]) rest

/-- The lines of a tree and the numbers of what is in it, which are counted without a bound: words
of 32 bits would do for fewer than 2 ^ 32 entries. -/
def drawing (target : String) (walk : List Visit) : List String :=
  let below := walk.drop 1
  let dirs := (below.filter (·.entry.isDirectory)).length
  let files := below.length - dirs
  target :: treeLines [] (below.zip ((lastFlags walk).1.drop 1)) ++
    ["", toString dirs ++ " directories, " ++ toString files ++ " files"]

def runTree (args : List String) (env : Environment) : Except Fault Reply :=
  let target := args.head?.getD "."
  let walk := env.files.walk target
  if walk.isEmpty then env.refuse .noSuchDirectory [("dir", target)]
  else .ok (.lines (drawing target walk))

def tree : Command where
  name := "tree"
  description := "Display directory tree"
  usage := "tree [path]"
  category := "filesystem"
  run := reading runTree

section Find
variable (lib : Text.PatternLibrary)

/-- Where to search and the pattern that names have to match, from the arguments. Every glob among
them has to make a pattern. -/
def searchArguments (start : String) (pattern : Option lib.Pattern) :
    List String → Option (String × Option lib.Pattern)
  | [] => some (start, pattern)
  | "-name" :: rest =>
    match rest with
    | glob :: rest =>
      match lib.compile? (Text.globPattern lib glob) with
      | some pattern => searchArguments start (some pattern) rest
      | none => none
    | [] => none
  | arg :: rest =>
    if Text.begins "-" arg then none else searchArguments arg pattern rest

def findUsage : String := "find [path] [-name <glob>]"

def runFind (args : List String) (env : Environment) : Except Fault Reply :=
  match searchArguments lib "." none args with
  | none => env.usageFault findUsage
  | some (start, pattern) =>
    let walk := env.files.walk start
    if walk.isEmpty then env.refuse .fileNotFound [("file", start)]
    else
      .ok (.report ((walk.filter fun v =>
        pattern.all fun p => lib.isMatch p v.entry.name).map (·.path)))

def find : Command where
  name := "find"
  description := "Search for files by name"
  usage := findUsage
  category := "text"
  run := reading (runFind lib)

end Find

end Browse
end PocketTerminal.Shell
