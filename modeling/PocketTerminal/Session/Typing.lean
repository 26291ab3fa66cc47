import PocketTerminal.Session.State

/-! # Editing the input line

Recalling earlier lines with the arrow keys, and completing the name of a command. -/
namespace PocketTerminal.Session

/-- The entry before the one that was recalled, or the newest. -/
def recallOlder (s : Session) : Session :=
  let place :=
    match s.recalled with
    | none => s.history.length - 1
    | some i => min (i - 1) (s.history.length - 1)
  match s.history[place]? with
  | some line => { s with input := line, recalled := some place }
  | none => s

/-- The entry after the one that was recalled, or an empty line behind the newest. -/
def recallNewer (s : Session) : Session :=
  match s.recalled with
  | none => s
  | some i =>
    match s.history[i + 1]? with
    | some line => { s with input := line, recalled := some (i + 1) }
    | none => { s with input := "", recalled := none }

def sharedStart : List Char → List Char → List Char
  | a :: as, b :: bs => if a = b then a :: sharedStart as bs else []
  | _, _ => []

def commonStart : List String → String
  | [] => ""
  | word :: rest =>
    String.ofList (rest.foldl (fun start other => sharedStart start other.toList) word.toList)

def candidates (s : Session) : List String :=
  Shell.Registry.sortedNames
    (s.registry.completions s.input ++ s.aliases.names.filter (Text.begins s.input))

/-- The input completed: to the only candidate, or as far as all candidates agree. -/
def complete (s : Session) : Session :=
  if s.input = "" || Text.hasBlank s.input then s
  else
    match s.candidates with
    | [] => s
    | [name] => { s with input := name ++ " " }
    | names =>
      let start := commonStart names
      if s.input.utf8ByteSize < start.utf8ByteSize then { s with input := start } else s

def typeChar (s : Session) (c : Char) : Session := { s with input := s.input.push c }

def eraseChar (s : Session) : Session :=
  { s with input := String.ofList s.input.toList.dropLast }

end PocketTerminal.Session
