/-! # Structured documents

The part of a document that a configuration can ask for, whichever notation it was
written in. Numbers and truth values are never asked for, so they are told apart from
the rest and not from each other. -/
namespace PocketTerminal.Document

inductive Value where
  | null
  /-- A number or a truth value. -/
  | scalar
  | date
  /-- A text or an object whose characters do not exist: it may stand where nothing looks. -/
  | unreadable
  | text (text : String)
  | list (items : List Value)
  | table (entries : List (String × Value))
deriving Inhabited

namespace Value

def text? : Value → Option String
  | text s => some s
  | _ => none

def optional? : Value → Option (Option String)
  | null => some none
  | text s => some (some s)
  | _ => none

def list? : Value → Option (List Value)
  | list items => some items
  | _ => none

def isEmpty : Value → Bool
  | list items => items.isEmpty
  | table entries => entries.isEmpty
  | _ => false

end Value

/-- A notation's choices in how records are read. -/
structure Reading where
  /-- A list that stands for a record may be longer than the record. -/
  longLists : Bool
  /-- What the entry of a table that names a choice may hold. -/
  choicePayload : Value → Bool

abbrev Fields (α : Type) := List (String × (α → Value → Option α))

namespace Fields

variable {α : Type}

def distinct (fields : Fields α) (entries : List (String × Value)) : Bool :=
  decide ((entries.map Prod.fst).filter fun key => (fields.lookup key).isSome).Nodup

def ofEntries (fields : Fields α) (start : α) (entries : List (String × Value)) : Option α :=
  if fields.distinct entries then
    entries.foldlM (fun record entry =>
      match fields.lookup entry.1 with
      | some set => set record entry.2
      | none => some record) start
  else none

def ofItems (longLists : Bool) : Fields α → α → List Value → Option α
  | [], record, items => if longLists || items.isEmpty then some record else none
  | _ :: _, record, [] => some record
  | field :: fields, record, item :: items =>
    (field.2 record item).bind fun record => ofItems longLists fields record items

/-- A record, which a table or a list may stand for; a date is a table of nothing known. -/
def read (r : Reading) (fields : Fields α) (start : α) : Value → Option α
  | .table entries => fields.ofEntries start entries
  | .date => some start
  | .list items => ofItems r.longLists fields start items
  | _ => none

end Fields

/-- The name of a choice, written as a text or as a table with exactly one entry. -/
def Reading.choice (r : Reading) : Value → Option String
  | .text name => some name
  | .table [(name, payload)] => if r.choicePayload payload then some name else none
  | _ => none

end PocketTerminal.Document
