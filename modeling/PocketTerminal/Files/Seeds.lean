import PocketTerminal.Files.Change

/-! # Stores built from seed records

A seed is one flat record of a file or a directory. Directories on the way are created,
a path seen again updates what is there, and a record below a file is skipped. -/
namespace PocketTerminal.Files

structure Seed where
  path : String
  content : Option String := none
  pageSection : Option String := none
  isDirectory : Bool := false
deriving DecidableEq, Repr, Inhabited

namespace Seed

def payload (seed : Seed) : Payload :=
  if seed.isDirectory then .children [] else .text (seed.content.getD "")

def update (seed : Seed) (e : Entry) : Entry :=
  if e.isDirectory != seed.isDirectory then e
  else
    { e with
      pageSection := seed.pageSection <|> e.pageSection
      payload := if seed.isDirectory then e.payload else seed.payload }

end Seed

namespace Store

def create (home : String) : Store :=
  let home := Path.normalize home
  match (bare home).createDir home true with
  | (true, s) => { s with cwd := home }
  | (false, s) => s

def usualHome : String := "/home/visitor"

def plant (s : Store) (seed : Seed) : Store :=
  let path := Path.normalize seed.path
  if path = "/" then s
  else
    match s.createDir (Path.parent path) true with
    | (false, s) => s
    | (true, s) =>
      match s.lookup (Path.parent path) with
      | none => s
      | some dir =>
        let name := Path.fileName path
        match s.find? dir name with
        | some slot => s.modify slot seed.update
        | none => (s.insert dir name seed.pageSection seed.payload).2

def ofSeeds (seeds : List Seed) (home : String) : Store :=
  seeds.foldl plant (create home)

/-- The store built anew, with the working directory kept where it is still one. -/
def rebuild (s : Store) (seeds : List Seed) (home : String) : Store :=
  let fresh := ofSeeds seeds home
  if fresh.hasDirectory s.cwd then { fresh with cwd := s.cwd } else fresh

end Store
end PocketTerminal.Files
