import PocketTerminal.Files.Store

/-! # Trees in a store

Reading a whole tree out of a store, giving its slots back, putting it in elsewhere, and
walking it with every directory before its entries. No chain of directories is longer
than the store has slots, so that number bounds every descent. -/
namespace PocketTerminal.Files

structure Visit where
  /-- The absolute path of the entry. -/
  path : String
  /-- The number of steps below the start of the walk. -/
  depth : Nat
  entry : Entry
deriving DecidableEq, Repr

namespace Store

def treeAt (s : Store) : Nat → Slot → Option Node
  | 0, _ => none
  | n + 1, slot =>
    (s.at? slot).map fun e =>
      match e.payload with
      | .text content => .file e.name e.pageSection content
      | .children slots => .directory e.name e.pageSection (slots.filterMap (s.treeAt n))

def tree? (s : Store) (slot : Slot) : Option Node := s.treeAt s.slots.size slot

/-- The slots of the tree at a slot, down to a depth, a directory before its entries. -/
def slotsAt (s : Store) : Nat → Slot → List Slot
  | 0, _ => []
  | n + 1, slot => slot :: (s.children slot).flatMap (s.slotsAt n)

def treeSlots (s : Store) (slot : Slot) : List Slot := s.slotsAt s.slots.size slot

def detach (s : Store) (slot : Slot) : Store :=
  (s.treeSlots slot).foldl release (s.unlink slot)

mutual

/-- A tree put into a directory, in fresh slots. -/
def attach (s : Store) (dir : Slot) : Node → Store
  | .file name pageSection content => (s.insert dir name pageSection (.text content)).2
  | .directory name pageSection entries =>
    let (slot, s) := s.insert dir name pageSection (.children [])
    s.attachAll slot entries

def attachAll (s : Store) (dir : Slot) : List Node → Store
  | [] => s
  | node :: rest => (s.attach dir node).attachAll dir rest

end

/-- The walk of the tree at a slot that has a path, down to a number of levels. -/
def visitsAt (s : Store) : Nat → String → Nat → Slot → List Visit
  | 0, _, _, _ => []
  | n + 1, path, depth, slot =>
    match s.at? slot with
    | none => []
    | some e =>
      { path := path, depth := depth, entry := e } ::
        e.children.flatMap fun child =>
          s.visitsAt n (Path.join path ((s.name? child).getD "")) (depth + 1) child

def walk (s : Store) (input : String) : List Visit :=
  let path := s.resolve input
  match s.lookup path with
  | some slot => s.visitsAt s.slots.size path 0 slot
  | none => []

end Store
end PocketTerminal.Files
