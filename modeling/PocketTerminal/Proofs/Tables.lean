import PocketTerminal.Table

/-! # What tables hold -/
namespace PocketTerminal.Table

variable {α : Type}

theorem lookup_cons (p : String × α) (rest : List (String × α)) (name : String) :
    (p :: rest).lookup name = if name = p.1 then some p.2 else rest.lookup name := by
  rw [List.lookup_cons]
  by_cases h : name = p.1
  · rw [if_pos h, beq_iff_eq.mpr h]
  · rw [if_neg h, beq_false_of_ne h]

/-- A table holds what was put in last, and else what it held. -/
theorem get?_insert (t : Table α) (name : String) (value : α) (other : String) :
    (t.insert name value).get? other = if other = name then some value else t.get? other := by
  change (place name value t.entries).lookup other = if other = name then _ else t.entries.lookup other
  induction t.entries with
  | nil => exact lookup_cons (name, value) [] other
  | cons p rest ih =>
    unfold place
    split
    · exact lookup_cons (name, value) (p :: rest) other
    · next hle =>
      split
      · next hlt =>
        rw [lookup_cons, lookup_cons, ih]
        by_cases hp : other = p.1
        · have hne : other ≠ name := by
            intro he
            rw [← he, hp] at hlt
            exact String.lt_irrefl _ hlt
          rw [if_pos hp, if_pos hp, if_neg hne]
        · rw [if_neg hp, if_neg hp]
      · next hge =>
        have heq : p.1 = name := Std.le_antisymm (Std.not_lt.mp hle) (Std.not_lt.mp hge)
        rw [lookup_cons, lookup_cons, heq]
        by_cases h : other = name
        · rw [if_pos h, if_pos h]
        · rw [if_neg h, if_neg h, if_neg h]

theorem isEmpty_of_get? {t : Table α} {name : String} {value : α} (h : t.get? name = some value) :
    t.isEmpty = false := by
  obtain ⟨entries, hsorted⟩ := t
  cases entries with
  | nil => cases h
  | cons p rest => rfl

/-- A value put in where there may be one gives way to it. -/
theorem get?_insertNew (t : Table α) (name : String) (value : α) (other : String) :
    (t.insertNew name value).get? other =
      if other = name then (t.get? name).or (some value) else t.get? other := by
  unfold insertNew contains
  cases hname : t.get? name with
  | some old =>
    rw [Option.isSome_some, if_pos rfl]
    split
    · next he => rw [he, hname, Option.some_or]
    · rfl
  | none =>
    rw [Option.isSome_none, if_neg Bool.false_ne_true, get?_insert, Option.none_or]

theorem insertNew_of_get? {t : Table α} {name : String} {old : α} (h : t.get? name = some old)
    (value : α) : t.insertNew name value = t := by
  rw [insertNew, contains, h]
  rfl

theorem place_of_lookup {entries : List (String × α)} {name : String} {value : α}
    (hsorted : entries.Pairwise fun p q => p.1 < q.1) (h : entries.lookup name = some value) :
    place name value entries = entries := by
  induction entries with
  | nil => cases h
  | cons p rest ih =>
    obtain ⟨hfirst, hrest⟩ := List.pairwise_cons.mp hsorted
    rw [lookup_cons] at h
    unfold place
    by_cases hname : name = p.1
    · rw [if_pos hname] at h
      cases h
      rw [if_neg (hname ▸ String.lt_irrefl _), if_neg (hname ▸ String.lt_irrefl _), hname]
    · rw [if_neg hname] at h
      obtain ⟨before, after, rfl, -⟩ := List.lookup_eq_some_iff.mp h
      have hlt : p.1 < name :=
        hfirst (name, value) (List.mem_append_right _ List.mem_cons_self)
      rw [if_neg (Std.not_lt.mpr (Std.le_of_lt hlt)), if_pos hlt, ih hrest h]

/-- To put in what a table holds changes nothing. -/
theorem insert_of_get? {t : Table α} {name : String} {value : α} (h : t.get? name = some value) :
    t.insert name value = t := by
  obtain ⟨entries, hsorted⟩ := t
  simp only [insert, place_of_lookup hsorted h]

end PocketTerminal.Table
