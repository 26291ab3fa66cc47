import PocketTerminal.Proofs.Text.Beginnings

/-! # Texts cut at bytes

A text that is cut at a byte is cut between two characters, or it is not cut. The byte where a
column begins is the size of what is before the column, so cutting there gives what taking and
dropping characters gives, and nothing fails. -/
namespace PocketTerminal.Text

def bytes (cs : List Char) : Nat := (String.ofList cs).utf8ByteSize

/-- The characters in front of a byte and those behind it, unless it is inside a character or past
the end. -/
def cutByte? : Nat → List Char → Option (List Char × List Char)
  | 0, cs => some ([], cs)
  | _ + 1, [] => none
  | n + 1, c :: cs =>
    if c.utf8Size ≤ n + 1 then (cutByte? (n + 1 - c.utf8Size) cs).map fun p => (c :: p.1, p.2)
    else none

def charIndices : Nat → List Char → List (Nat × Char)
  | _, [] => []
  | start, c :: cs => (start, c) :: charIndices (start + c.utf8Size) cs

/-- The byte where a column begins, or the end of a shorter text. -/
def byteIndex (cs : List Char) (col : Nat) : Nat :=
  ((charIndices 0 cs)[col]?).elim (bytes cs) Prod.fst

def insertAt? (byte : Nat) (added cs : List Char) : Option (List Char) :=
  (cutByte? byte cs).map fun p => p.1 ++ added ++ p.2

def removeAt? (byte : Nat) (cs : List Char) : Option (List Char) :=
  match cutByte? byte cs with
  | some (before, _ :: behind) => some (before ++ behind)
  | _ => none

variable {c : Char} {cs before behind : List Char} {start col : Nat}

theorem bytes_nil : bytes [] = 0 := rfl

theorem bytes_cons (c : Char) (cs : List Char) : bytes (c :: cs) = c.utf8Size + bytes cs :=
  utf8ByteSize_ofList_cons c cs

theorem bytes_le_of_prefix (h : before <+: cs) : bytes before ≤ bytes cs := by
  obtain ⟨behind, rfl⟩ := h
  unfold bytes
  rw [String.ofList_append, String.utf8ByteSize_append]
  exact Nat.le_add_right _ _

theorem cutByte?_bytes_append (before behind : List Char) :
    cutByte? (bytes before) (before ++ behind) = some (before, behind) := by
  induction before with
  | nil => simp [bytes_nil, cutByte?]
  | cons c before ih =>
    have hpos := c.utf8Size_pos
    obtain ⟨n, hn⟩ := Nat.exists_eq_add_one.mpr (Nat.add_pos_left hpos (bytes before))
    have hrest : n + 1 - c.utf8Size = bytes before := by omega
    rw [bytes_cons, hn, List.cons_append, cutByte?, if_pos (by omega), hrest, ih]
    rfl

theorem cutByte?_bytes_take (cs : List Char) (col : Nat) :
    cutByte? (bytes (cs.take col)) cs = some (cs.take col, cs.drop col) := by
  have hcut := cutByte?_bytes_append (cs.take col) (cs.drop col)
  rwa [List.take_append_drop] at hcut

theorem getElem?_charIndices (start : Nat) (cs : List Char) (col : Nat) :
    (charIndices start cs)[col]? = (cs[col]?).map fun c => (start + bytes (cs.take col), c) := by
  induction cs generalizing start col with
  | nil => rfl
  | cons c cs ih =>
    cases col with
    | zero => rfl
    | succ col =>
      rw [charIndices, List.getElem?_cons_succ, ih, List.getElem?_cons_succ, List.take_succ_cons,
        bytes_cons, Nat.add_assoc]

theorem byteIndex_eq (cs : List Char) (col : Nat) : byteIndex cs col = bytes (cs.take col) := by
  unfold byteIndex
  rw [getElem?_charIndices]
  cases hc : cs[col]? with
  | some c => simp
  | none => simp [List.take_of_length_le (List.getElem?_eq_none_iff.mp hc)]

theorem removeAt?_byteIndex (h : col < cs.length) :
    removeAt? (byteIndex cs col) cs = some (cs.eraseIdx col) := by
  rw [removeAt?, byteIndex_eq, cutByte?_bytes_take, List.drop_eq_getElem_cons h,
    List.eraseIdx_eq_take_drop_succ]

end PocketTerminal.Text
