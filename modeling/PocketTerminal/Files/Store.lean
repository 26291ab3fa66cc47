import PocketTerminal.Files.Entry
import PocketTerminal.Files.Path

/-! # The store of entries

Entries live in numbered slots. The root directory has slot 0, a slot that is given back
waits in a list of free slots, and the last one given back is used first. Directories
list their entries in the order of their names. -/
namespace PocketTerminal.Files

structure Store where
  slots : Array (Option Entry)
  free : List Slot := []
  /-- The working directory, a path in normal form. -/
  cwd : String := "/"
  /-- The home directory, a path in normal form. -/
  home : String := "/"
deriving DecidableEq, Repr

namespace Store

def root : Slot := 0

def rootEntry : Entry := { name := "/", payload := .children [] }

def bare (home : String) : Store := { slots := #[some rootEntry], home := home }

instance : Inhabited Store := ⟨bare "/"⟩

def at? (s : Store) (slot : Slot) : Option Entry := s.slots[slot]?.join

def count (s : Store) : Nat := s.slots.size - s.free.length

def isDirectory (s : Store) (slot : Slot) : Bool :=
  (s.at? slot).any Entry.isDirectory

def children (s : Store) (slot : Slot) : List Slot :=
  ((s.at? slot).map Entry.children).getD []

def modify (s : Store) (slot : Slot) (change : Entry → Entry) : Store :=
  match s.at? slot with
  | some e => { s with slots := s.slots.setIfInBounds slot (some (change e)) }
  | none => s

def alloc (s : Store) (e : Entry) : Slot × Store :=
  match s.free with
  | slot :: free => (slot, { s with slots := s.slots.setIfInBounds slot (some e), free := free })
  | [] => (s.slots.size, { s with slots := s.slots.push (some e) })

def release (s : Store) (slot : Slot) : Store :=
  { s with slots := s.slots.setIfInBounds slot none, free := slot :: s.free }

def name? (s : Store) (slot : Slot) : Option String := (s.at? slot).map Entry.name

/-- The first entry of that name. Listings are in the order of names, so it is the only one, and
halving the listing finds it too. -/
def find? (s : Store) (dir : Slot) (name : String) : Option Slot :=
  (s.children dir).find? fun slot => s.name? slot == some name

def isBefore (s : Store) (name : String) (slot : Slot) : Bool :=
  (s.name? slot).any (· < name)

def placeByName (s : Store) (name : String) (slot : Slot) (others : List Slot) : List Slot :=
  others.takeWhile (s.isBefore name) ++ slot :: others.dropWhile (s.isBefore name)

def link (s : Store) (dir child : Slot) : Store :=
  let name := (s.name? child).getD ""
  (s.modify dir (Entry.relist (s.placeByName name child))).modify child
    fun e => { e with parent := some dir }

def parent? (s : Store) (slot : Slot) : Option Slot := (s.at? slot).bind Entry.parent

def unlink (s : Store) (child : Slot) : Store :=
  let unlisted :=
    match s.parent? child with
    | none => s
    | some dir => s.modify dir (Entry.relist (·.filter (· != child)))
  unlisted.modify child fun e => { e with parent := none }

def insert (s : Store) (dir : Slot) (name : String) (pageSection : Option String)
    (payload : Payload) : Slot × Store :=
  let (slot, s) := s.alloc { name := name, pageSection := pageSection, payload := payload }
  (slot, s.link dir slot)

def descend (s : Store) : Slot → List String → Option Slot
  | slot, [] => some slot
  | slot, name :: rest => (s.find? slot name).bind fun child => s.descend child rest

def lookup (s : Store) (path : String) : Option Slot :=
  s.descend root (Path.components path)

/-- Whether following parents leads from a slot to another within a number of steps. -/
def climbsTo (s : Store) (above : Slot) : Nat → Slot → Bool
  | 0, slot => slot == above
  | n + 1, slot =>
    slot == above ||
      ((s.parent? slot).any fun dir => s.climbsTo above n dir)

def isWithin (s : Store) (slot above : Slot) : Bool := s.climbsTo above s.slots.size slot

def hasDirectory (s : Store) (path : String) : Bool :=
  (s.lookup path).any s.isDirectory

def resolve (s : Store) (input : String) : String := Path.resolve s.cwd s.home input

def get? (s : Store) (input : String) : Option Entry :=
  (s.lookup (s.resolve input)).bind s.at?

def read? (s : Store) (input : String) : Option String :=
  (s.get? input).bind Entry.content?

def list? (s : Store) (input : Option String) : Option (List Entry) :=
  match s.lookup (input.elim s.cwd s.resolve) with
  | some slot =>
    if s.isDirectory slot then some ((s.children slot).filterMap s.at?) else none
  | none => none

end Store
end PocketTerminal.Files
