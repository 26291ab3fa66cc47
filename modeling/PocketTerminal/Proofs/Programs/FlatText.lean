import PocketTerminal.Programs.Editor
import PocketTerminal.Proofs.Text.Pieces
import Mathlib.Algebra.Ring.Nat

/-! # The editor as a flat text with a caret

Lines, a row and a column are one way to hold a text and a place in it. Read as one list of
characters with a caret between two of them, every key does what its name says, also at the
ends of a line, where the flat text has a line feed and the document has none. -/
namespace PocketTerminal

structure FlatText where
  chars : List Char
  caret : Nat
deriving DecidableEq, Repr

namespace FlatText

def insert (t : FlatText) (added : List Char) : FlatText :=
  ⟨t.chars.take t.caret ++ added ++ t.chars.drop t.caret, t.caret + added.length⟩

/-- The character before the caret taken out. At the start of the text there is none. -/
def erase (t : FlatText) : FlatText :=
  if t.caret = 0 then t else ⟨t.chars.eraseIdx (t.caret - 1), t.caret - 1⟩

/-- What a key does. The place that the caret takes in another row depends on how the text is
cut into lines, so the flat text leaves it open. -/
inductive Step (t : FlatText) : Key → FlatText → Prop
  | char (c : Char) : Step t (.char c) (t.insert [c])
  | tab : Step t .tab (t.insert (List.replicate 4 ' '))
  | enter : Step t .enter (t.insert ['\n'])
  | backspace : Step t .backspace t.erase
  | left : Step t .arrowLeft { t with caret := t.caret - 1 }
  | right : Step t .arrowRight { t with caret := min (t.caret + 1) t.chars.length }
  | up {caret : Nat} (h : caret ≤ t.chars.length) : Step t .arrowUp { t with caret := caret }
  | down {caret : Nat} (h : caret ≤ t.chars.length) : Step t .arrowDown { t with caret := caret }
  | escape : Step t .escape t

def between (before after : List Char) : FlatText := ⟨before ++ after, before.length⟩

variable (before after : List Char)

theorem insert_between (added : List Char) :
    (between before after).insert added = between (before ++ added) after := by
  simp [between, insert]

theorem erase_between_nil : (between [] after).erase = between [] after := rfl

theorem erase_between_concat (c : Char) :
    (between (before ++ [c]) after).erase = between before after := by
  simp [between, erase, List.eraseIdx_append_of_length_le]

end FlatText

/-- No token names a control character: the keys with names of their own carry no character. -/
theorem Key.isControl_eq_false_of_parse {token : String} {c : Char}
    (h : Key.parse token = some (.char c)) : Text.isControl c = false := by
  unfold Key.parse at h
  split at h
  · next key hlookup =>
    obtain ⟨before, after, hnamed, -⟩ := List.lookup_eq_some_iff.mp hlookup
    have hmem : (token, key) ∈ Key.named := by simp [hnamed]
    rw [Option.some_inj.mp h] at hmem
    simp [Key.named] at hmem
  · split at h
    · split at h
      · cases h
      · next hc =>
        cases h
        simpa using hc
    · cases h

theorem Key.ne_lineFeed_of_parse {token : String} {key : Key} (h : Key.parse token = some key) :
    key ≠ .char '\n' := by
  rintro rfl
  exact absurd (Key.isControl_eq_false_of_parse h) (by decide)

namespace Editor

def offset (e : Editor) : Nat := ((e.lines.take e.row).map (·.length + 1)).sum + e.col

def flat (e : Editor) : FlatText := ⟨e.text.toList, e.offset⟩

def typed (e : Editor) (tokens : List String) : Editor := (tokens.filterMap Key.parse).foldl press e

/-- What holds of an editor that was opened on a text, whatever has been typed. -/
structure Valid (opened : String) (e : Editor) : Prop where
  row_lt : e.row < e.lines.length
  col_le : e.col ≤ (e.line e.row).length
  lineFeed_notMem : ∀ line ∈ e.lines, '\n' ∉ line
  text_of_unmodified : e.modified = false → e.text = opened

/-- A document read around a place in it: the lines above, the two parts of the line, the lines
below. -/
structure Around where
  above : List (List Char)
  left : List Char
  right : List Char
  below : List (List Char)

namespace Around

def lines (a : Around) : List (List Char) := a.above ++ (a.left ++ a.right) :: a.below

def before (a : Around) : List Char := a.above.flatMap (· ++ ['\n']) ++ a.left

def after (a : Around) : List Char := a.right ++ a.below.flatMap ('\n' :: ·)

theorem intercalate_lines (a : Around) : ['\n'].intercalate a.lines = a.before ++ a.after := by
  simp [lines, before, after, Text.intercalate_append_cons]

theorem length_before (a : Around) :
    a.before.length = (a.above.map (·.length + 1)).sum + a.left.length := by
  simp [before, List.length_flatMap]

theorem modify_lines (a : Around) (f : List Char → List Char) :
    a.lines.modify a.above.length f = a.above ++ f (a.left ++ a.right) :: a.below := by
  have hlt : a.above.length < a.lines.length := by simp [lines]
  rw [List.modify_eq_take_cons_drop hlt]
  simp [lines]

def Plain (a : Around) : Prop := ∀ line ∈ a.lines, '\n' ∉ line

theorem plain_iff {above : List (List Char)} {left right : List Char} {below : List (List Char)} :
    Plain ⟨above, left, right, below⟩ ↔
      (∀ line ∈ above, '\n' ∉ line) ∧ ('\n' ∉ left ∧ '\n' ∉ right) ∧ ∀ line ∈ below, '\n' ∉ line := by
  simp only [Plain, lines, List.forall_mem_append]
  simp only [List.forall_mem_cons, List.mem_append, not_or]

def flat (a : Around) : FlatText := .between a.before a.after

/-- Two places of one document differ in the caret only. -/
theorem flat_of_lines_eq {a b : Around} (h : b.lines = a.lines) :
    b.flat = { a.flat with caret := b.before.length } := by
  have hchars : b.before ++ b.after = a.before ++ a.after := by
    rw [← intercalate_lines, ← intercalate_lines, h]
  simp [flat, FlatText.between, hchars]

theorem length_before_le {a b : Around} (h : b.lines = a.lines) :
    b.before.length ≤ a.flat.chars.length := by
  have hchars : b.flat.chars = a.flat.chars := by rw [flat_of_lines_eq h]
  rw [← hchars, flat, FlatText.between, List.length_append]
  exact Nat.le_add_right _ _

inductive Behind : Around → Prop
  | char (above left c right below) : Behind ⟨above, left ++ [c], right, below⟩
  | lineEnd (up upper right below) : Behind ⟨up ++ [upper], [], right, below⟩
  | start (right below) : Behind ⟨[], [], right, below⟩

theorem behind (a : Around) : a.Behind := by
  obtain ⟨above, left, right, below⟩ := a
  rcases List.eq_nil_or_concat' left with rfl | ⟨left, c, rfl⟩
  · rcases List.eq_nil_or_concat' above with rfl | ⟨up, upper, rfl⟩
    · exact .start right below
    · exact .lineEnd up upper right below
  · exact .char above left c right below

inductive Ahead : Around → Prop
  | char (above left c right below) : Ahead ⟨above, left, c :: right, below⟩
  | lineStart (above left lower down) : Ahead ⟨above, left, [], lower :: down⟩
  | finish (above left) : Ahead ⟨above, left, [], []⟩

theorem ahead (a : Around) : a.Ahead := by
  obtain ⟨above, left, _ | ⟨c, right⟩, _ | ⟨lower, down⟩⟩ := a
  · exact .finish above left
  · exact .lineStart above left lower down
  · exact .char above left c right []
  · exact .char above left c right (lower :: down)

end Around

structure At (e : Editor) (a : Around) : Prop where
  lines : e.lines = a.lines
  row : e.row = a.above.length
  col : e.col = a.left.length

variable {e : Editor} {a : Around}

theorem exists_at (hrow : e.row < e.lines.length) (hcol : e.col ≤ (e.line e.row).length) :
    ∃ a, e.At a := by
  have hline : e.line e.row = e.lines[e.row] := by simp [line, hrow]
  refine ⟨⟨e.lines.take e.row, (e.line e.row).take e.col, (e.line e.row).drop e.col,
    e.lines.drop (e.row + 1)⟩, ?_, ?_, ?_⟩
  · rw [Around.lines, List.take_append_drop, hline, List.getElem_cons_drop, List.take_append_drop]
  · rw [List.length_take_of_le (Nat.le_of_lt hrow)]
  · rw [List.length_take_of_le hcol]

namespace At

theorem line (h : e.At a) : e.line e.row = a.left ++ a.right := by
  simp [Editor.line, h.lines, h.row, Around.lines]

theorem take_lines (h : e.At a) : e.lines.take e.row = a.above := by
  rw [h.lines, h.row, Around.lines, List.take_left]

theorem drop_lines (h : e.At a) : e.lines.drop (e.row + 1) = a.below := by
  rw [h.lines, h.row, Around.lines, List.drop_length_add_append, List.drop_one, List.tail_cons]

theorem row_lt (h : e.At a) : e.row < e.lines.length := by
  simp [h.lines, h.row, Around.lines]

theorem col_le (h : e.At a) : e.col ≤ (e.line e.row).length := by
  simp [h.line, h.col]

theorem flat (h : e.At a) : e.flat = .between a.before a.after := by
  have hoffset : e.offset = a.before.length := by
    rw [offset, h.take_lines, h.col, a.length_before]
  rw [Editor.flat, FlatText.between, hoffset, text, String.toList_ofList, h.lines,
    a.intercalate_lines]

theorem insert (h : e.At a) (added : List Char) :
    (e.insert added).At { a with left := a.left ++ added } := by
  refine ⟨?_, h.row, ?_⟩
  · rw [Editor.insert, h.lines, h.row, h.col, a.modify_lines]
    simp [Around.lines]
  · simp [Editor.insert, h.col]

theorem splitLine (h : e.At a) :
    e.splitLine.At ⟨a.above ++ [a.left], [], a.right, a.below⟩ := by
  refine ⟨?_, ?_, rfl⟩
  · rw [Editor.splitLine, h.line, h.take_lines, h.drop_lines, h.col]
    simp [Around.lines]
  · simp [Editor.splitLine, h.row]

end At

-- The cursor's line is joined to the one above it when nothing stands before the cursor in its
-- own line. The place is then read with the line above split off.
section LineStart
variable {up : List (List Char)} {upper right : List Char} {below : List (List Char)}

theorem At.line_above (h : e.At ⟨up ++ [upper], [], right, below⟩) :
    e.line (e.row - 1) = upper := by
  simp [Editor.line, h.lines, h.row, Around.lines]

theorem At.joinLine (h : e.At ⟨up ++ [upper], [], right, below⟩) :
    e.joinLine.At ⟨up, upper, right, below⟩ := by
  have hrow : e.row = up.length + 1 := by simpa using h.row
  refine ⟨?_, ?_, ?_⟩
  · rw [Editor.joinLine, h.line_above, h.line, h.drop_lines, h.lines, hrow]
    simp [Around.lines]
  · simp [Editor.joinLine, hrow]
  · simp [Editor.joinLine, h.line_above]

end LineStart

theorem insert_follows (h : e.At a) (hplain : a.Plain) (added : List Char) (hadded : '\n' ∉ added) :
    ∃ b, (e.insert added).At b ∧ b.Plain ∧ b.flat = a.flat.insert added := by
  refine ⟨_, h.insert added, ?_, ?_⟩
  · obtain ⟨habove, ⟨hleft, hright⟩, hbelow⟩ := Around.plain_iff.mp hplain
    exact Around.plain_iff.mpr ⟨habove, ⟨by simp [hleft, hadded], hright⟩, hbelow⟩
  · simp [Around.flat, FlatText.insert_between, Around.before, Around.after]

theorem splitLine_follows (h : e.At a) (hplain : a.Plain) :
    ∃ b, e.splitLine.At b ∧ b.Plain ∧ b.flat = a.flat.insert ['\n'] := by
  refine ⟨_, h.splitLine, ?_, ?_⟩
  · obtain ⟨habove, ⟨hleft, hright⟩, hbelow⟩ := Around.plain_iff.mp hplain
    refine Around.plain_iff.mpr ⟨?_, ⟨List.not_mem_nil, hright⟩, hbelow⟩
    exact List.forall_mem_append.mpr ⟨habove, by simpa using hleft⟩
  · simp [Around.flat, FlatText.insert_between, Around.before, Around.after]

theorem backspace_follows (h : e.At a) (hplain : a.Plain) :
    ∃ b, e.backspace.At b ∧ b.Plain ∧ b.flat = a.flat.erase := by
  cases a.behind with
  | char above left c right below =>
    have hcol : e.col = left.length + 1 := by simpa using h.col
    obtain ⟨habove, ⟨hleft, hright⟩, hbelow⟩ := Around.plain_iff.mp hplain
    refine ⟨⟨above, left, right, below⟩, ⟨?_, ?_, ?_⟩, ?_, ?_⟩
    · rw [backspace, if_pos (by omega), h.lines, h.row, hcol, Around.modify_lines]
      simp [Around.lines, List.eraseIdx_append_of_length_le]
    · simp [backspace, hcol, h.row]
    · simp [backspace, hcol]
    · exact Around.plain_iff.mpr ⟨habove, ⟨fun hmem => hleft (by simp [hmem]), hright⟩, hbelow⟩
    · have herase := FlatText.erase_between_concat (Around.before ⟨above, left, right, below⟩)
        (Around.after ⟨above, left, right, below⟩) c
      simpa [Around.flat, Around.before, Around.after] using herase.symm
  | lineEnd up upper right below =>
    have hback : e.backspace = e.joinLine := by simp [backspace, h.col, h.row]
    obtain ⟨hup, ⟨-, hright⟩, hbelow⟩ := Around.plain_iff.mp hplain
    obtain ⟨hup, hupper⟩ := List.forall_mem_append.mp hup
    refine ⟨⟨up, upper, right, below⟩, hback ▸ h.joinLine, ?_, ?_⟩
    · exact Around.plain_iff.mpr ⟨hup, ⟨by simpa using hupper, hright⟩, hbelow⟩
    · have herase := FlatText.erase_between_concat (Around.before ⟨up, upper, right, below⟩)
        (Around.after ⟨up, upper, right, below⟩) '\n'
      simpa [Around.flat, Around.before, Around.after] using herase.symm
  | start right below =>
    have hback : e.backspace = e := by simp [backspace, h.col, h.row]
    exact ⟨_, hback.symm ▸ h, hplain, (FlatText.erase_between_nil _).symm⟩

-- Keys that move the cursor leave the lines as they are, so only the number of characters before
-- the cursor is to be compared.
theorem left_follows (h : e.At a) :
    ∃ b, e.left.At b ∧ b.lines = a.lines ∧ b.before.length = a.before.length - 1 := by
  cases a.behind with
  | char above left c right below =>
    have hcol : e.col = left.length + 1 := by simpa using h.col
    have hleft : e.left = { e with col := left.length } := by simp [Editor.left, hcol]
    refine ⟨⟨above, left, c :: right, below⟩, hleft ▸ ⟨?_, h.row, rfl⟩, ?_, ?_⟩
    · simpa [Around.lines] using h.lines
    · simp [Around.lines]
    · simp [Around.before, ← Nat.add_assoc]
  | lineEnd up upper right below =>
    have hcol : e.col = 0 := h.col
    have hrow : e.row = up.length + 1 := by simpa using h.row
    have hleft : e.left = { e with row := e.row - 1, col := upper.length } := by
      rw [Editor.left, if_neg (by omega), if_pos (by omega), h.line_above]
    refine ⟨⟨up, upper, [], right :: below⟩, hleft ▸ ⟨?_, ?_, rfl⟩, ?_, ?_⟩
    · simpa [Around.lines] using h.lines
    · simp [hrow]
    · simp [Around.lines]
    · simp [Around.before, ← Nat.add_assoc]
  | start right below =>
    have hleft : e.left = e := by simp [Editor.left, h.col, h.row]
    exact ⟨_, hleft.symm ▸ h, rfl, rfl⟩

theorem right_follows (h : e.At a) :
    ∃ b, e.right.At b ∧ b.lines = a.lines ∧
      b.before.length = min (a.before.length + 1) a.flat.chars.length := by
  cases a.ahead with
  | char above left c right below =>
    have hright : e.right = { e with col := left.length + 1 } := by
      simp [Editor.right, h.col, h.line]
    refine ⟨⟨above, left ++ [c], right, below⟩, hright ▸ ⟨?_, h.row, ?_⟩, ?_, ?_⟩
    · simpa [Around.lines] using h.lines
    · simp
    · simp [Around.lines]
    · simp [Around.before, Around.after, Around.flat, FlatText.between]
      omega
  | lineStart above left lower down =>
    have hlength : (e.line e.row).length = e.col := by simp [h.line, h.col]
    have hlines : e.lines.length = e.row + 1 + (down.length + 1) := by
      simp [h.lines, h.row, Around.lines]
      omega
    have hright : e.right = { e with row := above.length + 1, col := 0 } := by
      rw [Editor.right, if_neg (by omega), if_pos (by omega), h.row]
    refine ⟨⟨above ++ [left], [], lower, down⟩, hright ▸ ⟨?_, ?_, rfl⟩, ?_, ?_⟩
    · simpa [Around.lines] using h.lines
    · simp
    · simp [Around.lines]
    · simp [Around.before, Around.after, Around.flat, FlatText.between]
      omega
  | finish above left =>
    have hlength : (e.line e.row).length = e.col := by simp [h.line, h.col]
    have hlines : e.lines.length = e.row + 1 := by simp [h.lines, h.row, Around.lines]
    have hright : e.right = e := by rw [Editor.right, if_neg (by omega), if_neg (by omega)]
    refine ⟨_, hright.symm ▸ h, rfl, ?_⟩
    simp [Around.before, Around.after, Around.flat, FlatText.between]

theorem toRow_follows (h : e.At a) (row : Nat) (hrow : row < e.lines.length) :
    ∃ b, (e.toRow row).At b ∧ b.lines = a.lines ∧ b.before.length ≤ a.flat.chars.length := by
  have hcol : (e.toRow row).col ≤ ((e.toRow row).line row).length := Nat.min_le_right _ _
  obtain ⟨b, hb⟩ := exists_at (e := e.toRow row) hrow hcol
  have hlines : b.lines = a.lines := hb.lines.symm.trans h.lines
  exact ⟨b, hb, hlines, Around.length_before_le hlines⟩

/-- Every key that is not itself a line feed makes its step on the flat text. -/
theorem edit_follows (h : e.At a) (hplain : a.Plain) {key : Key} (hkey : key ≠ .char '\n') :
    ∃ b, (e.edit key).At b ∧ b.Plain ∧ a.flat.Step key b.flat := by
  -- Keys that leave the lines as they are move the caret only.
  have moved {e' : Editor} {b : Around} (hb : e'.At b) (hlines : b.lines = a.lines)
      (hstep : a.flat.Step key { a.flat with caret := b.before.length }) :
      ∃ b, e'.At b ∧ b.Plain ∧ a.flat.Step key b.flat := by
    refine ⟨b, hb, ?_, ?_⟩
    · rwa [Around.Plain, hlines]
    · rwa [Around.flat_of_lines_eq hlines]
  cases key with
  | char c =>
    obtain ⟨b, hb, hb', hflat⟩ := insert_follows h hplain [c] (by simpa [eq_comm] using hkey)
    exact ⟨b, hb, hb', hflat ▸ .char c⟩
  | tab =>
    obtain ⟨b, hb, hb', hflat⟩ := insert_follows h hplain (List.replicate 4 ' ') (by decide)
    exact ⟨b, hb, hb', hflat ▸ .tab⟩
  | enter =>
    obtain ⟨b, hb, hb', hflat⟩ := splitLine_follows h hplain
    exact ⟨b, hb, hb', hflat ▸ .enter⟩
  | backspace =>
    obtain ⟨b, hb, hb', hflat⟩ := backspace_follows h hplain
    exact ⟨b, hb, hb', hflat ▸ .backspace⟩
  | arrowLeft =>
    obtain ⟨b, hb, hlines, hcaret⟩ := left_follows h
    exact moved hb hlines (hcaret ▸ .left)
  | arrowRight =>
    obtain ⟨b, hb, hlines, hcaret⟩ := right_follows h
    exact moved hb hlines (hcaret ▸ .right)
  | arrowUp =>
    have hrow := h.row_lt
    obtain ⟨b, hb, hlines, hcaret⟩ := toRow_follows h (e.row - 1) (by omega)
    exact moved hb hlines (.up hcaret)
  | arrowDown =>
    have hrow := h.row_lt
    obtain ⟨b, hb, hlines, hcaret⟩ :=
      toRow_follows h (min (e.row + 1) (e.lines.length - 1)) (by omega)
    exact moved hb hlines (.down hcaret)
  | escape => exact ⟨a, h, hplain, .escape⟩

theorem left_keeps (e : Editor) : e.left.modified = e.modified ∧ e.left.lines = e.lines := by
  unfold left
  split
  · exact ⟨rfl, rfl⟩
  · split <;> exact ⟨rfl, rfl⟩

theorem right_keeps (e : Editor) : e.right.modified = e.modified ∧ e.right.lines = e.lines := by
  unfold right
  split
  · exact ⟨rfl, rfl⟩
  · split <;> exact ⟨rfl, rfl⟩

/-- A key after which the text counts as unmodified has not touched the lines. -/
theorem edit_unmodified {key : Key} (h : (e.edit key).modified = false) :
    e.modified = false ∧ (e.edit key).lines = e.lines := by
  cases key with
  | char c => cases h
  | tab => cases h
  | enter => cases h
  | backspace =>
    rw [edit, backspace] at h ⊢
    split at h
    · cases h
    · next hcol =>
      rw [if_neg hcol]
      split at h
      · cases h
      · next hrow => exact ⟨h, by rw [if_neg hrow]⟩
  | arrowLeft => exact ⟨e.left_keeps.1 ▸ h, e.left_keeps.2⟩
  | arrowRight => exact ⟨e.right_keeps.1 ▸ h, e.right_keeps.2⟩
  | arrowUp => exact ⟨h, rfl⟩
  | arrowDown => exact ⟨h, rfl⟩
  | escape => exact ⟨h, rfl⟩

-- Scrolling moves the window only, so a key press is its edit as far as the text goes.
theorem At.scrollIntoView (h : e.At a) : e.scrollIntoView.At a := ⟨h.lines, h.row, h.col⟩

variable {opened : String}

theorem Valid.exists_plain_at (h : e.Valid opened) : ∃ a, e.At a ∧ a.Plain := by
  obtain ⟨a, ha⟩ := exists_at h.row_lt h.col_le
  exact ⟨a, ha, fun line hline => h.lineFeed_notMem line (ha.lines ▸ hline)⟩

theorem valid_create (title content : String) : (create title content).Valid content where
  row_lt := List.length_pos_of_ne_nil (List.splitOn_ne_nil '\n' content.toList)
  col_le := Nat.zero_le _
  lineFeed_notMem _ hline := Text.notMem_of_mem_splitOn hline
  text_of_unmodified _ := by simp [text, create]

theorem flat_create (title content : String) : (create title content).flat = ⟨content.toList, 0⟩ := by
  simp [flat, offset, text, create]

/-- A key press keeps the document in order and makes its step on the flat text. -/
theorem Valid.press (h : e.Valid opened) {key : Key} (hkey : key ≠ .char '\n') :
    (e.press key).Valid opened ∧ e.flat.Step key (e.press key).flat := by
  obtain ⟨a, ha, hplain⟩ := h.exists_plain_at
  obtain ⟨b, hb, hplain', hstep⟩ := edit_follows ha hplain hkey
  have hpress : (e.press key).At b := hb.scrollIntoView
  refine ⟨⟨hpress.row_lt, hpress.col_le, ?_, fun hmodified => ?_⟩, ?_⟩
  · rw [hpress.lines]
    exact hplain'
  · obtain ⟨hunmodified, hlines⟩ := edit_unmodified (e := e) hmodified
    rw [← h.text_of_unmodified hunmodified]
    exact congrArg (fun lines => String.ofList (['\n'].intercalate lines)) hlines
  · rw [ha.flat, hpress.flat]
    exact hstep

theorem Valid.typed (h : e.Valid opened) (tokens : List String) : (e.typed tokens).Valid opened := by
  induction tokens generalizing e with
  | nil => exact h
  | cons token tokens ih =>
    cases hkey : Key.parse token with
    | none => simpa [Editor.typed, hkey] using ih h
    | some key =>
      have hpress := (h.press (Key.ne_lineFeed_of_parse hkey)).1
      simpa [Editor.typed, hkey] using ih hpress

/-- Whatever has been typed into a document, it is a flat text with a caret that started as the
document's text with the caret at its start, and the next key makes its step on it. -/
theorem typed_flat (title content : String) (tokens : List String) :
    (create title content).flat = ⟨content.toList, 0⟩ ∧
      ((create title content).typed tokens).lines ≠ [] ∧
      ((create title content).typed tokens).Valid content ∧
      ∀ token key, Key.parse token = some key →
        ((create title content).typed tokens).flat.Step key
          (((create title content).typed tokens).press key).flat := by
  have hvalid := (valid_create title content).typed tokens
  refine ⟨flat_create title content, List.ne_nil_of_length_pos (Nat.zero_lt_of_lt hvalid.row_lt),
    hvalid, ?_⟩
  intro token key hkey
  exact (hvalid.press (Key.ne_lineFeed_of_parse hkey)).2

/-- Behind a character of two bytes and before a line's end. -/
theorem typed_flat_wide :
    Key.parse "é" = some (.char 'é') ∧
      FlatText.Step ⟨['ß', '\n', 'a'], 1⟩ (.char 'é') ⟨['ß', 'é', '\n', 'a'], 2⟩ := by
  have hkey : Key.parse "é" = some (.char 'é') := by decide +kernel
  have hbefore : ((create "note" "ß\n").typed ["ArrowDown", "a", "Left", "ArrowUp"]).flat =
      ⟨['ß', '\n', 'a'], 1⟩ := by decide +kernel
  have hafter : (((create "note" "ß\n").typed ["ArrowDown", "a", "Left", "ArrowUp"]).press
      (.char 'é')).flat = ⟨['ß', 'é', '\n', 'a'], 2⟩ := by decide +kernel
  obtain ⟨-, -, -, hstep⟩ := typed_flat "note" "ß\n" ["ArrowDown", "a", "Left", "ArrowUp"]
  exact ⟨hkey, hbefore ▸ hafter ▸ hstep "é" (.char 'é') hkey⟩

end Editor
end PocketTerminal
