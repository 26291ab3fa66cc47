import PocketTerminal.Color
import PocketTerminal.Text.Blank

/-! # Drawing

A surface knows two strokes: a filled rectangle and one line of text. A drawing is the
list of its strokes in order, and everything else is made of those. Coordinates are
pixels and wrap like the machine words they are. -/
namespace PocketTerminal

inductive Stroke where
  | rect (x y : Int32) (w h : UInt32) (color : Color)
  | text (text : String) (x y : Int32) (size : UInt16) (color : Color)
deriving DecidableEq, Repr

abbrev Drawing := List Stroke

namespace Drawing

/-- The width of one glyph: six tenths of the font size, rounded up, at least one. -/
def advance (size : UInt16) : UInt32 := max ((size.toUInt32 * 3 + 4) / 5) 1

def textWidth (text : String) (size : UInt16) : UInt32 :=
  (Text.width text).toUInt32 * advance size

def clear (w h : UInt32) (color : Color) : Drawing := [.rect 0 0 w h color]

def outline (x y : Int32) (w h : UInt32) (line : UInt16) (color : Color) : Drawing :=
  let bar := min (min line.toUInt32 w) h
  if bar = 0 then []
  else
    [.rect x y w bar color, .rect x (y + (h - bar).toInt32) w bar color,
     .rect x y bar h color, .rect (x + (w - bar).toInt32) y bar h color]

def halfChord (r dy : Int32) : Int32 := (r * r - dy * dy).toFloat32.sqrt.toInt32

def disc (cx cy : Int32) (radius : UInt16) (color : Color) : Drawing :=
  (List.range (2 * radius.toNat + 1)).map fun i =>
    let dy := Int32.ofNat i - Int32.ofNat radius.toNat
    let half := halfChord (Int32.ofNat radius.toNat) dy
    .rect (cx - half) (cy + dy) (half * 2 + 1).toUInt32 1 color

def fontFor (height rows : UInt32) : UInt16 :=
  (min (max (height / max rows 1 * 3 / 4) 8) 24).toUInt16

/-- Subtraction that stops at zero. -/
def less (a b : UInt32) : UInt32 := if a < b then 0 else a - b

def centered (text : String) (width : UInt32) (y : Int32) (size : UInt16) (color : Color) :
    Stroke :=
  .text text (less width (textWidth text size) / 2).toInt32 y size color

end Drawing

/-- What a surface shows of a drawing: all of it, or only the strokes before the first
one that the surface refused. -/
structure Painted where
  strokes : Drawing
  fault : Option Fault := none

def canvasFault : Fault := .refused "canvas failed"

/-- A drawing on a surface that refuses its `n`-th stroke, counted from one. -/
def Drawing.paint (drawing : Drawing) : Option Nat → Painted
  | some (n + 1) =>
    if n < drawing.length then ⟨drawing.take n, some canvasFault⟩ else ⟨drawing, none⟩
  | _ => ⟨drawing, none⟩

end PocketTerminal
