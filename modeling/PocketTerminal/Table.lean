/-! # Tables

A table holds at most one value for each name, in the order of the names' characters.
The order is part of the type, so two tables that answer alike are equal. -/
namespace PocketTerminal

structure Table (α : Type) where
  entries : List (String × α) := []
  sorted : entries.Pairwise (fun p q => p.1 < q.1) := by exact List.Pairwise.nil

namespace Table

variable {α : Type}

def empty : Table α := {}

instance : Inhabited (Table α) := ⟨empty⟩

def names (t : Table α) : List String := t.entries.map Prod.fst

def values (t : Table α) : List α := t.entries.map Prod.snd

def isEmpty (t : Table α) : Bool := t.entries.isEmpty

def get? (t : Table α) (name : String) : Option α := t.entries.lookup name

def contains (t : Table α) (name : String) : Bool := (t.get? name).isSome

/-- An entry put where its name belongs, in place of the one that had the name. -/
def place (name : String) (value : α) : List (String × α) → List (String × α)
  | [] => [(name, value)]
  | p :: rest =>
    if name < p.1 then (name, value) :: p :: rest
    else if p.1 < name then p :: place name value rest
    else (name, value) :: rest

theorem fst_of_mem_place {name : String} {value : α} {entries : List (String × α)}
    {p : String × α} (h : p ∈ place name value entries) : p.1 = name ∨ p ∈ entries := by
  induction entries with
  | nil => simp_all [place]
  | cons q rest ih =>
    unfold place at h
    split at h
    · rcases List.mem_cons.mp h with rfl | h
      · exact .inl rfl
      · exact .inr h
    · split at h
      · rcases List.mem_cons.mp h with rfl | h
        · exact .inr List.mem_cons_self
        · exact (ih h).imp id (List.mem_cons_of_mem _)
      · rcases List.mem_cons.mp h with rfl | h
        · exact .inl rfl
        · exact .inr (List.mem_cons_of_mem _ h)

theorem place_sorted (name : String) (value : α) {entries : List (String × α)}
    (h : entries.Pairwise (fun p q => p.1 < q.1)) :
    (place name value entries).Pairwise (fun p q => p.1 < q.1) := by
  induction entries with
  | nil => simp [place]
  | cons q rest ih =>
    have hq := List.pairwise_cons.mp h
    unfold place
    split
    case isTrue hlt =>
      refine List.pairwise_cons.mpr ⟨fun p hp => ?_, h⟩
      rcases List.mem_cons.mp hp with rfl | hp
      · exact hlt
      · exact String.lt_trans hlt (hq.1 p hp)
    case isFalse hlt =>
      split
      case isTrue hgt =>
        refine List.pairwise_cons.mpr ⟨fun p hp => ?_, ih hq.2⟩
        rcases fst_of_mem_place hp with hp | hp
        · exact hp ▸ hgt
        · exact hq.1 p hp
      case isFalse hgt =>
        have he : q.1 = name := Std.le_antisymm (Std.not_lt.mp hlt) (Std.not_lt.mp hgt)
        refine List.pairwise_cons.mpr ⟨fun p hp => ?_, hq.2⟩
        exact he ▸ hq.1 p hp

def insert (t : Table α) (name : String) (value : α) : Table α :=
  ⟨place name value t.entries, place_sorted name value t.sorted⟩

def erase (t : Table α) (name : String) : Table α :=
  ⟨t.entries.filter (fun p => p.1 != name), t.sorted.filter _⟩

def insertNew (t : Table α) (name : String) (value : α) : Table α :=
  if t.contains name then t else t.insert name value

end Table
end PocketTerminal
