import PocketTerminal.Proofs.Programs.FlatText
import PocketTerminal.Proofs.Text.ByteOffsets

/-! # Edits at bytes

The cursor's column counts characters, but a line is changed at a byte: characters are put in at the
byte where the column begins, the line is split there, and the character that begins there is taken
out. Each of these fails at a byte inside a character or past the end, and asking for a line that
does not exist fails too. None of that happens to an editor in order: the edits at bytes are the
edits at columns. -/
namespace PocketTerminal.Editor

open Text (byteIndex cutByte? insertAt? removeAt?)

variable {e : Editor} {a : Around} {opened : String}

def insertBytes? (e : Editor) (chars : List Char) : Option Editor := do
  let line ← e.lines[e.row]?
  let line ← insertAt? (byteIndex line e.col) chars line
  some { e with
    lines := e.lines.set e.row line
    col := e.col + chars.length
    modified := true }

def splitBytes? (e : Editor) : Option Editor := do
  let line ← e.lines[e.row]?
  let (before, behind) ← cutByte? (byteIndex line e.col) line
  -- A line can be put in up to the end of the document.
  if e.row + 1 ≤ e.lines.length then
    some { e with
      lines := (e.lines.set e.row before).insertIdx (e.row + 1) behind
      row := e.row + 1
      col := 0
      modified := true }
  else none

def joinLines? (e : Editor) : Option Editor := do
  let tail ← e.lines[e.row]?
  let lines := e.lines.eraseIdx e.row
  let above ← lines[e.row - 1]?
  some { e with
    lines := lines.set (e.row - 1) (above ++ tail)
    row := e.row - 1
    col := above.length
    modified := true }

def eraseBytes? (e : Editor) : Option Editor :=
  if 0 < e.col then do
    let line ← e.lines[e.row]?
    let line ← removeAt? (byteIndex line (e.col - 1)) line
    some { e with
      lines := e.lines.set e.row line
      col := e.col - 1
      modified := true }
  else if 0 < e.row then e.joinLines?
  else some e

/-- A key's edit with all lines changed at bytes. Keys that move the cursor change no line. -/
def editBytes? (e : Editor) : Key → Option Editor
  | .char c => e.insertBytes? [c]
  | .tab => e.insertBytes? [' ', ' ', ' ', ' ']
  | .enter => e.splitBytes?
  | .backspace => e.eraseBytes?
  | key => some (e.edit key)

def pressBytes? (e : Editor) (key : Key) : Option Editor := (e.editBytes? key).map scrollIntoView

def typedBytes? (e : Editor) (tokens : List String) : Option Editor :=
  (tokens.filterMap Key.parse).foldlM pressBytes? e

theorem insertIdx_behind (above : List (List Char)) (line behind : List Char)
    (below : List (List Char)) :
    (above ++ line :: below).insertIdx (above.length + 1) behind =
      above ++ line :: behind :: below := by
  induction above with
  | nil => rfl
  | cons upper above ih => simp [ih]

namespace At

theorem getElem?_lines (h : e.At a) : e.lines[e.row]? = some (a.left ++ a.right) := by
  simp [h.lines, h.row, Around.lines]

theorem set_lines (h : e.At a) (line : List Char) :
    e.lines.set e.row line = a.above ++ line :: a.below := by
  rw [h.lines, h.row, Around.lines, List.set_append_right _ _ le_rfl, Nat.sub_self,
    List.set_cons_zero]

/-- The byte where the cursor's column begins is where the two parts of its line meet. -/
theorem cutByte?_col (h : e.At a) :
    cutByte? (byteIndex (a.left ++ a.right) e.col) (a.left ++ a.right) = some (a.left, a.right) := by
  rw [Text.byteIndex_eq, h.col, List.take_left]
  exact Text.cutByte?_bytes_append a.left a.right

theorem insertBytes?_eq (h : e.At a) (chars : List Char) :
    e.insertBytes? chars = some (e.insert chars) := by
  have hlines : (e.insert chars).lines = a.above ++ (a.left ++ chars ++ a.right) :: a.below :=
    (h.insert chars).lines
  have hinsert : insertAt? (byteIndex (a.left ++ a.right) e.col) chars (a.left ++ a.right) =
      some (a.left ++ chars ++ a.right) := by
    rw [insertAt?, h.cutByte?_col]
    rfl
  simp only [insertBytes?, h.getElem?_lines, Option.bind_eq_bind, Option.bind_some, hinsert,
    h.set_lines, ← hlines]
  rfl

theorem splitBytes?_eq (h : e.At a) : e.splitBytes? = some e.splitLine := by
  have hlines : e.splitLine.lines = a.above ++ a.left :: a.right :: a.below := by
    rw [h.splitLine.lines, Around.lines, List.append_assoc]
    rfl
  have hput : (a.above ++ a.left :: a.below).insertIdx (e.row + 1) a.right = e.splitLine.lines := by
    rw [h.row, insertIdx_behind, hlines]
  have hle : e.row + 1 ≤ e.lines.length := h.row_lt
  simp only [splitBytes?, h.getElem?_lines, Option.bind_eq_bind, Option.bind_some, h.cutByte?_col,
    if_pos hle, h.set_lines, hput]
  rfl

end At

section LineStart
variable {up : List (List Char)} {upper right : List Char} {below : List (List Char)}

theorem At.joinLines?_eq (h : e.At ⟨up ++ [upper], [], right, below⟩) :
    e.joinLines? = some e.joinLine := by
  have hrow : e.row = up.length + 1 := by simpa using h.row
  have herase : e.lines.eraseIdx e.row = up ++ upper :: below := by
    rw [h.lines, h.row, Around.lines, List.eraseIdx_append_of_length_le le_rfl, Nat.sub_self]
    simp
  have habove : (up ++ upper :: below)[e.row - 1]? = some upper := by simp [hrow]
  have hset : (up ++ upper :: below).set (e.row - 1) (upper ++ right) = e.joinLine.lines := by
    rw [h.joinLine.lines, Around.lines, hrow, Nat.add_sub_cancel,
      List.set_append_right _ _ le_rfl, Nat.sub_self, List.set_cons_zero]
  have hcol : e.joinLine.col = upper.length := h.joinLine.col
  simp only [joinLines?, h.getElem?_lines, Option.bind_eq_bind, Option.bind_some, herase, habove,
    List.nil_append, hset, ← hcol]
  rfl

theorem At.eraseBytes?_eq_of_char {c : Char} {left : List Char}
    (h : e.At ⟨up, left ++ [c], right, below⟩) : e.eraseBytes? = some e.backspace := by
  have hcol : e.col - 1 = left.length := by simp [h.col]
  have hpos : 0 < e.col := by simp [h.col]
  have hremove : removeAt? (byteIndex (left ++ [c] ++ right) (e.col - 1)) (left ++ [c] ++ right) =
      some (left ++ right) := by
    rw [Text.removeAt?_byteIndex (by simp [hcol]), hcol]
    simp [List.eraseIdx_append_of_length_le]
  have hlines : e.backspace.lines = up ++ (left ++ right) :: below := by
    rw [backspace, if_pos hpos, h.lines, h.row, hcol, Around.modify_lines]
    simp [List.eraseIdx_append_of_length_le]
  simp only [eraseBytes?, if_pos hpos, h.getElem?_lines, Option.bind_eq_bind, Option.bind_some,
    hremove, h.set_lines, ← hlines]
  rw [backspace, if_pos hpos]

end LineStart

theorem At.eraseBytes?_eq (h : e.At a) : e.eraseBytes? = some e.backspace := by
  cases a.behind with
  | char above left c right below => exact h.eraseBytes?_eq_of_char
  | lineEnd up upper right below =>
    have hcol : ¬0 < e.col := by simp [h.col]
    have hrow : 0 < e.row := by simp [h.row]
    rw [eraseBytes?, if_neg hcol, if_pos hrow, h.joinLines?_eq, backspace, if_neg hcol,
      if_pos hrow]
  | start right below =>
    have hcol : ¬0 < e.col := by simp [h.col]
    have hrow : ¬0 < e.row := by simp [h.row]
    rw [eraseBytes?, if_neg hcol, if_neg hrow, backspace, if_neg hcol, if_neg hrow]

theorem Valid.pressBytes?_eq (h : e.Valid opened) (key : Key) :
    e.pressBytes? key = some (e.press key) := by
  obtain ⟨a, ha⟩ := exists_at h.row_lt h.col_le
  have hedit : e.editBytes? key = some (e.edit key) := by
    cases key with
    | char c => exact ha.insertBytes?_eq [c]
    | tab => exact ha.insertBytes?_eq [' ', ' ', ' ', ' ']
    | enter => exact ha.splitBytes?_eq
    | backspace => exact ha.eraseBytes?_eq
    | _ => rfl
  rw [pressBytes?, hedit]
  rfl

theorem Valid.typedBytes?_eq (h : e.Valid opened) (tokens : List String) :
    e.typedBytes? tokens = some (e.typed tokens) := by
  induction tokens generalizing e with
  | nil => rfl
  | cons token tokens ih =>
    cases hkey : Key.parse token with
    | none => simpa [typedBytes?, Editor.typed, hkey] using ih h
    | some key =>
      have hpress := (h.press (Key.ne_lineFeed_of_parse hkey)).1
      simpa [typedBytes?, Editor.typed, hkey, h.pressBytes?_eq] using ih hpress

/-- Whatever is typed into a document, no edit at bytes fails, and they lead where the edits at
columns lead. -/
theorem typedBytes?_create (title content : String) (tokens : List String) :
    (create title content).typedBytes? tokens = some ((create title content).typed tokens) := by
  apply Valid.typedBytes?_eq
  exact valid_create title content

end PocketTerminal.Editor
