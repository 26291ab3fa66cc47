import PocketTerminal.Canvas
import PocketTerminal.Theme

/-! # The image viewer

A file's text, or a picture in its place, in the middle of the area under its title. -/
namespace PocketTerminal

structure Viewer where
  title : String
  body : List String
deriving DecidableEq, Repr

namespace Viewer

def placeholder : List String :=
  ["+-------------------+",
   "|    .-.            |",
   "|   (   )    /\\     |",
   "|    `-'    /  \\/\\  |",
   "|          /      \\ |",
   "+-------------------+"]

def create (title : String) (content : Option String) : Viewer where
  title := title
  body :=
    match content with
    | some text => if Text.allBlank text then placeholder else Text.lines text
    | none => placeholder

open Drawing in
def draw (v : Viewer) (w h : UInt32) (theme : Theme) : Drawing :=
  let count := v.body.length
  let font := fontFor h (max (count.toUInt32 + 4) 12)
  let line := font.toUInt32.toInt32 + 4
  let block := Int32.ofNat count * line
  let top := max ((h.toInt32 - block) / 2) (line * 2)
  clear w h theme.bg ++
    [centered v.title w (line / 2) font theme.accent] ++
    v.body.zipIdx.map (fun (text, i) =>
      centered text w (top + Int32.ofNat i * line) font theme.text) ++
    [centered "Esc to close" w (h.toInt32 - line - 4) font theme.dim]

end Viewer
end PocketTerminal
