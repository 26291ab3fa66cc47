import PocketTerminal.Session.State

/-! # The picture of a session

The frame of the running program, or the last lines of the output with a cursor. -/
namespace PocketTerminal.Session

open Drawing

def fontSize : UInt16 := 14

def lineHeight : UInt32 := 18

def margin : Int32 := 4

def rowTop (i : Nat) : Int32 := margin + Int32.ofNat i * lineHeight.toInt32

def cursor (last : String) (row : Nat) (theme : Theme) : Stroke :=
  .rect (margin + (textWidth last fontSize).toInt32) (rowTop row)
    (max (textWidth " " fontSize) 1) lineHeight theme.accent

def drawOutput (s : Session) (w h : UInt32) : Drawing :=
  let theme := s.config.theme
  let shown := keepLast (max (h / lineHeight) 1).toNat s.lines
  clear w h theme.bg ++
    shown.zipIdx.map (fun (line, i) => .text line margin (rowTop i) fontSize theme.text) ++
    (shown.getLast?.map fun last => cursor last (shown.length - 1) theme).toList

def render (s : Session) (w h : UInt32) (failing : Option Nat) : Painted × Session :=
  match s.running with
  | some program =>
    let (painted, program) := program.render w h s.config.theme failing
    (painted, { s with running := some program })
  | none => ((s.drawOutput w h).paint failing, s)

end PocketTerminal.Session
