/-! # Entries and detached trees

An entry is one live file or directory of a store; a directory lists the slots of its
entries. A node is a whole tree cut loose from the store, with its entries inside it. -/
namespace PocketTerminal.Files

abbrev Slot := Nat

inductive Payload where
  | text (content : String)
  | children (slots : List Slot)
deriving DecidableEq, Repr, Inhabited

structure Entry where
  name : String
  /-- The page section that the entry links to. -/
  pageSection : Option String := none
  payload : Payload
  /-- The directory that lists the entry; the root has none. -/
  parent : Option Slot := none
deriving DecidableEq, Repr, Inhabited

namespace Entry

def isDirectory (e : Entry) : Bool :=
  match e.payload with
  | .children _ => true
  | .text _ => false

def content? (e : Entry) : Option String :=
  match e.payload with
  | .text content => some content
  | .children _ => none

def children (e : Entry) : List Slot :=
  match e.payload with
  | .children slots => slots
  | .text _ => []

def relist (change : List Slot → List Slot) (e : Entry) : Entry :=
  match e.payload with
  | .children slots => { e with payload := .children (change slots) }
  | .text _ => e

end Entry

inductive Node where
  | file (name : String) (pageSection : Option String) (content : String)
  | directory (name : String) (pageSection : Option String) (entries : List Node)
deriving Repr, Inhabited

namespace Node

def name : Node → String
  | file name _ _ | directory name _ _ => name

def pageSection : Node → Option String
  | file _ pageSection _ | directory _ pageSection _ => pageSection

def isDirectory : Node → Bool
  | file .. => false
  | directory .. => true

def rename (name : String) : Node → Node
  | file _ pageSection content => file name pageSection content
  | directory _ pageSection entries => directory name pageSection entries

mutual

def size : Node → Nat
  | file .. => 1
  | directory _ _ entries => 1 + sizes entries

def sizes : List Node → Nat
  | [] => 0
  | node :: rest => node.size + sizes rest

end

end Node
end PocketTerminal.Files
