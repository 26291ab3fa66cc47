import PocketTerminal.Canvas
import PocketTerminal.Key
import PocketTerminal.Theme

/-! # The text editor

A document is a list of lines of characters with a cursor in it, seen through a window
of rows that follows the cursor. Drawing a frame tells the editor how many rows fit. -/
namespace PocketTerminal

structure Editor where
  title : String
  /-- The document as it was opened. -/
  opened : String
  lines : List (List Char)
  col : Nat := 0
  row : Nat := 0
  /-- The first row of the window. -/
  scroll : Nat := 0
  /-- The number of rows that the last frame had place for. -/
  visible : Nat := 20
  modified : Bool := false
deriving DecidableEq, Repr

namespace Editor

def create (title content : String) : Editor :=
  { title := title, opened := content, lines := content.toList.splitOn '\n' }

def text (e : Editor) : String := String.ofList (['\n'].intercalate e.lines)

def line (e : Editor) (row : Nat) : List Char := (e.lines[row]?).getD []

/-- The top row of a window of so many rows that shows a row, moved no more than needed. -/
def visibleTop (scroll row rows : Nat) : Nat :=
  let rows := max rows 1
  if row < scroll then row
  else if scroll + rows ≤ row then row + 1 - rows
  else scroll

/-- Rows are counted in machine words, and a sum that fits none is a failure: the row behind the
window is asked for unless the row to be shown is above it. -/
def visibleTop? (scroll row rows : Nat) : Option Nat :=
  if scroll ≤ row ∧ UInt64.size ≤ scroll + max rows 1 then none else some (visibleTop scroll row rows)

def scrollIntoView (e : Editor) : Editor :=
  { e with scroll := visibleTop e.scroll e.row e.visible }

def scrollIntoView? (e : Editor) : Option Editor :=
  (visibleTop? e.scroll e.row e.visible).map fun top => { e with scroll := top }

/-- Another height of the window. Only a height from the host can be so great that the row behind
the window fits no word. -/
def setRows? (e : Editor) (rows : Nat) : Option Editor :=
  { e with visible := max rows 1 }.scrollIntoView?

def insert (e : Editor) (chars : List Char) : Editor :=
  { e with
    lines := e.lines.modify e.row fun line => line.take e.col ++ chars ++ line.drop e.col
    col := e.col + chars.length
    modified := true }

def splitLine (e : Editor) : Editor :=
  let line := e.line e.row
  { e with
    lines := e.lines.take e.row ++ [line.take e.col, line.drop e.col] ++ e.lines.drop (e.row + 1)
    row := e.row + 1
    col := 0
    modified := true }

def joinLine (e : Editor) : Editor :=
  { e with
    lines := e.lines.take (e.row - 1) ++ [e.line (e.row - 1) ++ e.line e.row] ++
      e.lines.drop (e.row + 1)
    row := e.row - 1
    col := (e.line (e.row - 1)).length
    modified := true }

def backspace (e : Editor) : Editor :=
  if 0 < e.col then
    { e with
      lines := e.lines.modify e.row (·.eraseIdx (e.col - 1))
      col := e.col - 1
      modified := true }
  else if 0 < e.row then e.joinLine
  else e

def left (e : Editor) : Editor :=
  if 0 < e.col then { e with col := e.col - 1 }
  else if 0 < e.row then { e with row := e.row - 1, col := (e.line (e.row - 1)).length }
  else e

def right (e : Editor) : Editor :=
  if e.col < (e.line e.row).length then { e with col := e.col + 1 }
  else if e.row + 1 < e.lines.length then { e with row := e.row + 1, col := 0 }
  else e

/-- The cursor in another row, in its column or at the end of a shorter line. -/
def toRow (e : Editor) (row : Nat) : Editor :=
  { e with row := row, col := min e.col (e.line row).length }

def edit (e : Editor) : Key → Editor
  | .char c => e.insert [c]
  | .tab => e.insert [' ', ' ', ' ', ' ']
  | .enter => e.splitLine
  | .backspace => e.backspace
  | .arrowLeft => e.left
  | .arrowRight => e.right
  | .arrowUp => e.toRow (e.row - 1)
  | .arrowDown => e.toRow (min (e.row + 1) (e.lines.length - 1))
  | .escape => e

def press (e : Editor) (key : Key) : Editor := (e.edit key).scrollIntoView

def reset (e : Editor) : Editor := create e.title e.opened

def fontSize (h : UInt32) : UInt16 := Drawing.fontFor h 24

def lineHeight (h : UInt32) : UInt32 := (fontSize h).toUInt32 + 4

def rowsIn (h : UInt32) : Nat :=
  (max (Drawing.less h (lineHeight h * 2) / lineHeight h) 1).toNat

/-- The editor after a frame has reached the surface. -/
def seen (e : Editor) (h : UInt32) : Editor := { e with visible := rowsIn h }

open Drawing in
def draw (e : Editor) (w h : UInt32) (theme : Theme) : Drawing :=
  let font := fontSize h
  let lineH := lineHeight h
  let glyph := advance font
  let rows := rowsIn h
  let top := visibleTop e.scroll e.row rows
  let header := "  nano  " ++ e.title ++ (if e.modified then "  [Modified]" else "")
  let shown := (e.lines.drop top).take rows
  let status := "Esc Exit   Ln " ++ toString (e.row + 1) ++ ", Col " ++ toString (e.col + 1)
  clear w h theme.bg ++
    [.rect 0 0 w lineH theme.dim, .text header 4 2 font theme.bg] ++
    shown.zipIdx.map (fun (line, i) =>
      .text (String.ofList line) 4 (((i.toUInt32 + 1) * lineH).toInt32 + 2) font theme.text) ++
    [.rect (4 + (e.col.toUInt32 * glyph).toInt32)
      ((((e.row - top).toUInt32 + 1) * lineH).toInt32) glyph lineH (theme.accent.withAlpha 160),
     .text status 4 ((less h lineH).toInt32 + 2) font theme.dim]

end Editor
end PocketTerminal
