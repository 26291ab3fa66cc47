import PocketTerminal.Canvas
import PocketTerminal.Key
import PocketTerminal.Programs.Clock
import PocketTerminal.Chance.Stream
import PocketTerminal.Theme

/-! # Pong

The field is one by one, with the player's paddle at the bottom and the computer's at the
top. All lengths and speeds are parts of the field. -/
namespace PocketTerminal.Arcade

open Chance (Stream)

namespace Pong

structure Ball where
  x : Float32
  y : Float32
  vx : Float32
  vy : Float32

def paddleW : Float32 := 0.18
def paddleH : Float32 := 0.02
def playerY : Float32 := 0.92
def aiY : Float32 := 0.08
def ballR : Float32 := 0.015
def playerStep : Float32 := 0.06
def aiMaxSpeed : Float32 := 0.45
def serveSpeed : Float32 := 0.55
def maxSpeed : Float32 := 1.2
def speedup : Float32 := 1.05
/-- The greatest sideways push of a hit. -/
def english : Float32 := 0.15

def clampPaddle (x : Float32) : Float32 := Clock.clamp (paddleW / 2.0) (1.0 - paddleW / 2.0) x

def serve (dir : Float32) (s : Stream) : Ball × Stream :=
  let (speed, s) := s.uniform 0.15 0.3
  let (toRight, s) := s.chance 0x8000000000000000
  ({ x := 0.5, y := 0.5, vx := speed * (if toRight then 1.0 else -1.0), vy := dir * serveSpeed }, s)

end Pong

open Pong in
structure Pong where
  seed : Option UInt64
  stream : Stream
  ball : Ball
  playerX : Float32 := 0.5
  aiX : Float32 := 0.5
  lives : Nat := 3
  playerScore : Nat := 0
  aiScore : Nat := 0
  finished : Bool := false

namespace Pong

def create (seed : Option UInt64) (free : Stream) : Pong :=
  let (ball, stream) := serve (-1.0) (.ofSeed? seed free)
  { seed := seed, stream := stream, ball := ball }

def reset (g : Pong) : Pong := create g.seed g.stream

def moveBall (b : Ball) (dt : Float32) : Ball :=
  let x := b.x + b.vx * dt
  let y := b.y + b.vy * dt
  if x < ballR then { x := ballR, y := y, vx := b.vx.abs, vy := b.vy }
  else if 1.0 - ballR < x then { x := 1.0 - ballR, y := y, vx := -b.vx.abs, vy := b.vy }
  else { b with x := x, y := y }

def moveAi (g : Pong) (dt : Float32) : Pong :=
  let most := aiMaxSpeed * dt
  { g with aiX := clampPaddle (g.aiX + Clock.clamp (-most) most (g.ball.x - g.aiX)) }

def bounce (g : Pong) (y dir : Float32) : Pong :=
  let speed := Clock.atMost maxSpeed (g.ball.vy.abs * speedup)
  let (push, stream) := g.stream.symmetric english
  { g with
    ball := { g.ball with y := y, vy := dir * speed, vx := g.ball.vx + push }
    stream := stream }

/-- How far from the middle of a paddle it still hits the ball. -/
def reach : Float32 := paddleW / 2.0 + ballR

def hitsAi (g : Pong) : Bool :=
  g.ball.vy < 0.0 && g.ball.y - ballR ≤ aiY + paddleH / 2.0 && aiY - paddleH ≤ g.ball.y &&
    (g.ball.x - g.aiX).abs ≤ reach

def hitsPlayer (g : Pong) : Bool :=
  0.0 < g.ball.vy && playerY - paddleH / 2.0 ≤ g.ball.y + ballR && g.ball.y ≤ playerY + paddleH &&
    (g.ball.x - g.playerX).abs ≤ reach

def hit (g : Pong) : Pong :=
  if g.hitsAi then g.bounce (aiY + paddleH / 2.0 + ballR) 1.0
  else if g.hitsPlayer then g.bounce (playerY - paddleH / 2.0 - ballR) (-1.0)
  else g

def served (g : Pong) (dir : Float32) : Pong :=
  let (ball, stream) := serve dir g.stream
  { g with ball := ball, stream := stream }

/-- A ball out of the field is a point, and below it costs the player a life. -/
def judge (g : Pong) : Pong :=
  if 1.0 + ballR < g.ball.y then
    let g := { g with aiScore := g.aiScore + 1, lives := g.lives - 1 }
    if g.lives = 0 then { g with finished := true } else g.served (-1.0)
  else if g.ball.y < -ballR then
    { g with playerScore := g.playerScore + 1 }.served 1.0
  else g

def update (g : Pong) (dt : Float32) : Pong :=
  (({ g with ball := moveBall g.ball dt }.moveAi dt).hit).judge

def press (g : Pong) (key : Key) : Pong :=
  if g.finished then
    if key = .enter || key.lowerChar = some 'r' then g.reset else g
  else if key = .arrowLeft || key.lowerChar = some 'a' then
    { g with playerX := clampPaddle (g.playerX - playerStep) }
  else if key = .arrowRight || key.lowerChar = some 'd' then
    { g with playerX := clampPaddle (g.playerX + playerStep) }
  else g

/-- The longest time that is played at once, so that no ball jumps over a paddle. -/
def sliceSecs : Float32 := 1.0 / 120.0

def tick (g : Pong) (dt : Float32) : Pong :=
  ((Clock.slices sliceSecs (Clock.atMost 0.25 dt)).getD []).foldl
    (fun g dt => if g.finished then g else g.update dt) g

open Drawing

def drawPaddle (x y w h : Float32) (paddleW paddleH : UInt32) (color : Color) : Stroke :=
  .rect ((x * w).toInt32 - paddleW.toInt32 / 2) ((y * h).toInt32 - paddleH.toInt32 / 2)
    paddleW paddleH color

def draw (g : Pong) (width height : UInt32) (theme : Theme) : Drawing :=
  let w := width.toFloat32
  let h := height.toFloat32
  let paddleW := (Clock.atLeast 2.0 (paddleW * w)).toUInt32
  let paddleH := (Clock.atLeast 2.0 (paddleH * h)).toUInt32
  let dash := (Clock.atLeast 2.0 (w / 40.0)).toUInt32
  let middle := (h / 2.0).toInt32
  let dashes := (width.toNat + 2 * dash.toNat - 1) / (2 * dash.toNat)
  let radius := (Clock.atLeast 1.0 (ballR * Clock.atMost h w)).toUInt16
  let font := fontFor height 24
  let hud := "You " ++ toString g.playerScore ++ "  AI " ++ toString g.aiScore ++
    "  Lives " ++ toString g.lives
  clear width height theme.bg ++
    (List.range dashes).map (fun i =>
      .rect (i.toUInt32 * (dash * 2)).toInt32 middle dash 1 theme.dim) ++
    [drawPaddle g.aiX aiY w h paddleW paddleH theme.dim,
     drawPaddle g.playerX playerY w h paddleW paddleH theme.text] ++
    disc (g.ball.x * w).toInt32 (g.ball.y * h).toInt32 radius theme.accent ++
    [.text hud 4 (middle + 4) font theme.dim] ++
    (if g.finished then
      [centered "Game over. Enter to play again" width (h * 0.35).toInt32 font theme.accent]
     else [])

end Pong
end PocketTerminal.Arcade
