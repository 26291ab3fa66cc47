import PocketTerminal.Files.Tree

/-! # Changes to a store

The operations that move the working directory or change the tree. Each answers whether
it was done, beside the store it leaves. -/
namespace PocketTerminal.Files

structure WriteMode where
  /-- The text goes behind the text that is there. -/
  append : Bool := false
  /-- A missing file is created. -/
  create : Bool := false
deriving DecidableEq, Repr

inductive Removal where
  | removed (node : Node)
  | notEmpty
  | notFound
  /-- The root stays. -/
  | protectedRoot
deriving Repr

namespace Store

def changeDir (s : Store) (input : String) : Bool × Store :=
  let path := s.resolve input
  if s.hasDirectory path then (true, { s with cwd := path }) else (false, s)

/-- The working directory, or home where that is gone, or the root where both are. -/
def repairCwd (s : Store) : Store :=
  if s.hasDirectory s.cwd then s
  else { s with cwd := if s.hasDirectory s.home then s.home else "/" }

/-- The directories that a list of names leads through. Only with `recursive` may a name
before the last be missing, or the last one be there. -/
def createAlong (recursive : Bool) : Store → Slot → List String → Bool × Store
  | s, _, [] => (true, s)
  | s, dir, name :: rest =>
    match s.find? dir name with
    | some slot =>
      if !s.isDirectory slot || (rest.isEmpty && !recursive) then (false, s)
      else createAlong recursive s slot rest
    | none =>
      if !rest.isEmpty && !recursive then (false, s)
      else
        let (slot, s) := s.insert dir name none (.children [])
        createAlong recursive s slot rest

def createDir (s : Store) (input : String) (recursive : Bool) : Bool × Store :=
  createAlong recursive s root (Path.components (s.resolve input))

def createFile (s : Store) (input content : String) : Bool × Store :=
  let path := s.resolve input
  if path = "/" || (s.lookup path).isSome then (false, s)
  else
    match s.lookup (Path.parent path) with
    | some dir =>
      if s.isDirectory dir then
        (true, (s.insert dir (Path.fileName path) none (.text content)).2)
      else (false, s)
    | none => (false, s)

def writeFile (s : Store) (input content : String) (mode : WriteMode) : Bool × Store :=
  let path := s.resolve input
  match s.lookup path with
  | some slot =>
    match (s.at? slot).bind Entry.content? with
    | some old =>
      let text := if mode.append then old ++ content else content
      (true, s.modify slot fun e => { e with payload := .text text })
    | none => (false, s)
  | none => if mode.create then s.createFile path content else (false, s)

/-- A directory that has entries goes only with `recursive`. -/
def remove (s : Store) (input : String) (recursive : Bool) : Removal × Store :=
  let path := s.resolve input
  if path = "/" then (.protectedRoot, s)
  else
    match s.lookup path with
    | none => (.notFound, s)
    | some slot =>
      if !(s.children slot).isEmpty && !recursive then (.notEmpty, s)
      else
        match s.tree? slot with
        | none => (.notFound, s)
        | some node => (.removed node, (s.detach slot).repairCwd)

/-- The directory and the name under which a source lands: in the destination where that
is a directory other than the source itself, and as the destination otherwise. -/
def landing? (s : Store) (source : Slot) (path : String) : Option (Slot × String) :=
  match (s.lookup path).filter fun slot => s.isDirectory slot && slot != source with
  | some dir => (s.name? source).map fun name => (dir, name)
  | none =>
    match s.lookup (Path.parent path) with
    | some dir =>
      let name := Path.fileName path
      if s.isDirectory dir && name != "" then some (dir, name) else none
    | none => none

/-- The store in which a source can land: not below itself, and in place of nothing but
a file by a file. -/
def clearLanding (s : Store) (source dir : Slot) (name : String) : Bool × Store :=
  if s.isWithin dir source then (false, s)
  else
    match s.find? dir name with
    | none => (true, s)
    | some there =>
      if there = source then (true, s)
      else if s.isDirectory there || s.isDirectory source then (false, s)
      else (true, s.detach there)

def copy (s : Store) (source destination : String) : Bool × Store :=
  let path := s.resolve destination
  match s.lookup (s.resolve source) with
  | none => (false, s)
  | some slot =>
    if slot = root then (false, s)
    else
      match s.landing? slot path with
      | none => (false, s)
      | some (dir, name) =>
        if s.find? dir name = some slot then (false, s)
        else
          match s.clearLanding slot dir name with
          | (false, s) => (false, s)
          | (true, s) =>
            match s.tree? slot with
            | none => (false, s)
            | some node => (true, s.attach dir (node.rename name))

def move (s : Store) (source destination : String) : Bool × Store :=
  let path := s.resolve destination
  match s.lookup (s.resolve source) with
  | none => (false, s)
  | some slot =>
    if slot = root then (false, s)
    else
      match s.landing? slot path with
      | none => (false, s)
      | some (dir, name) =>
        match s.clearLanding slot dir name with
        | (false, s) => (false, s)
        | (true, s) =>
          let renamed := (s.unlink slot).modify slot fun e => { e with name := name }
          (true, (renamed.link dir slot).repairCwd)

end Store
end PocketTerminal.Files
