import PocketTerminal.Text.Blank

/-! # Paths

A path is in normal form when it starts with `/` and is made of proper components, none
of them empty, `.` or `..`, with no `/` at its end unless it is the root. The tree is
only ever asked about paths in normal form. -/
namespace PocketTerminal.Path

def properComponent (component : List Char) : Bool :=
  !component.isEmpty && component != ['.'] && component != ['.', '.']

/-- Whether a path is in normal form already. -/
def isNormal (path : String) : Bool :=
  match path.toList with
  | '/' :: rest => rest.isEmpty || (rest.splitOn '/').all properComponent
  | _ => false

/-- One component applied to the components read so far, the last one first. -/
def enter (above : List (List Char)) (component : List Char) : List (List Char) :=
  if component = ['.', '.'] then above.drop 1
  else if properComponent component then component :: above
  else above

def ofComponents (components : List (List Char)) : List Char :=
  if components.isEmpty then ['/'] else components.flatMap ('/' :: ·)

/-- The components of a path, with `.` dropped and `..` dropping the one before it. -/
def reduce (path : List Char) : List (List Char) :=
  ((path.splitOn '/').foldl enter []).reverse

/-- The normal form of a path, which is read from the root whatever it starts with. -/
def normalize (path : String) : String :=
  if isNormal path then path else String.ofList (ofComponents (reduce path.toList))

/-- What the user's input means from a working directory: from home behind a `~`, from
the root behind a `/`, and below the working directory otherwise. -/
def resolve (cwd home input : String) : String :=
  normalize <| match input.toList with
    | '~' :: rest => home ++ "/" ++ String.ofList (rest.dropWhile (· == '/'))
    | '/' :: _ => input
    | [] => cwd
    | _ => cwd ++ "/" ++ input

def baseChars (path : List Char) : List Char :=
  (path.reverse.takeWhile (· != '/')).reverse

def fileName (path : String) : String := String.ofList (baseChars path.toList)

/-- All before the last `/`, or the root where nothing is before it. -/
def parent (path : String) : String :=
  match path.toList.reverse.dropWhile (· != '/') with
  | _ :: c :: rest => String.ofList (c :: rest).reverse
  | _ => "/"

def join (dir name : String) : String :=
  if dir = "/" then "/" ++ name else dir ++ "/" ++ name

def display (path home : String) : String :=
  if path = home then "~"
  else if Text.begins (home ++ "/") path then
    "~/" ++ String.ofList (path.toList.drop (home.toList.length + 1))
  else path

def components (path : String) : List String :=
  ((path.toList.splitOn '/').filter (!·.isEmpty)).map String.ofList

end PocketTerminal.Path
