import PocketTerminal.Canvas
import PocketTerminal.Key
import PocketTerminal.Programs.Clock
import PocketTerminal.Text.Numeral
import PocketTerminal.Theme

/-! # The music player

A track that plays in a loop of thirty seconds, with bars that dance to it. -/
namespace PocketTerminal

structure Player where
  title : String
  /-- The place in the loop, as a part of it. -/
  progress : Float32 := 0.0
  playing : Bool := true

namespace Player

def loopSecs : Float32 := 30.0

def create (title : String) : Player := { title := title }

def press (p : Player) (key : Key) : Player :=
  if key = .char ' ' then { p with playing := !p.playing } else p

def tick (p : Player) (dt : Float32) : Player :=
  if p.playing then { p with progress := Clock.fractional (p.progress + dt / loopSecs) } else p

def reset (p : Player) : Player := { p with progress := 0.0, playing := true }

def minutes (secs : Nat) : String :=
  toString (secs / 60) ++ ":" ++ Text.padLeft '0' 2 (toString (secs % 60))

def elapsed (p : Player) : String :=
  minutes (p.progress * loopSecs).toUInt32.toNat ++ " / " ++ minutes loopSecs.toUInt32.toNat

def bars : Nat := 16

def turn : Float32 := 6.283185307179586

def level (p : Player) (i : Nat) : Float32 :=
  if p.playing then
    let phase := p.progress * turn * 6.0 + Float32.ofNat i * 0.7
    0.2 + 0.8 * (phase.sin * 0.5 + 0.5)
  else 0.15

open Drawing in
def draw (p : Player) (w h : UInt32) (theme : Theme) : Drawing :=
  let font := fontFor h 12
  let line := font.toUInt32.toInt32 + 6
  let barW := max (w * 3 / 4 / bars.toUInt32) 2
  let track := barW * bars.toUInt32
  let left := (less w track / 2).toInt32
  let maxH := max (h / 3) 4
  let base := (h / 2 + maxH / 2).toInt32
  let trackY := base + line
  let bar (i : Nat) : Stroke :=
    let height := (maxH.toFloat32 * p.level i).toUInt32
    .rect (left + (i.toUInt32 * barW).toInt32) (base - height.toInt32) (less barW 1) height
      theme.text
  let filled := (track.toFloat32 * p.progress).toUInt32
  let status := (if p.playing then "playing" else "paused") ++ "  " ++ p.elapsed
  clear w h theme.bg ++ [centered p.title w line font theme.accent] ++
    (List.range bars).map bar ++
    [.rect left trackY track 4 theme.dim, .rect left trackY filled 4 theme.accent,
     centered status w (trackY + line) font theme.text,
     centered "Space play/pause   Esc quit" w (h.toInt32 - line) font theme.dim]

end Player
end PocketTerminal
