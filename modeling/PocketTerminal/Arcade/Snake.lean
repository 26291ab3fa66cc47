import PocketTerminal.Arcade.Grid
import PocketTerminal.Canvas
import PocketTerminal.Programs.Clock
import PocketTerminal.Chance.Stream
import PocketTerminal.Theme

/-! # Snake

The board is a grid, and the snake a list of its cells with the head in front. Until a
frame has shown how large the area is there is no board. -/
namespace PocketTerminal.Arcade

open Chance (Stream)

namespace Snake

structure Board where
  cols : Int
  rows : Int
  /-- The cells of the snake, its head first. -/
  body : List Cell
  dir : Direction := .right
  /-- The direction of the next step. -/
  nextDir : Direction := .right
  food : Cell := (0, 0)
  alive : Bool := true
  won : Bool := false
  score : Nat := 0
deriving DecidableEq, Repr

namespace Board

def contains (b : Board) (p : Cell) : Bool :=
  0 ≤ p.1 && 0 ≤ p.2 && p.1 < b.cols && p.2 < b.rows

def cells (b : Board) : List Cell := gridCells b.cols.toNat b.rows.toNat

def free (b : Board) : List Cell := b.cells.filter fun p => !b.body.contains p

/-- Food on a free cell; without one the game is won. -/
def placeFood (b : Board) (s : Stream) : Board × Stream :=
  if b.free.isEmpty then ({ b with won := true, alive := false }, s)
  else
    let (cell, s) := s.choose b.free
    ({ b with food := cell.getD b.food }, s)

def create (cols rows : Int) (s : Stream) : Board × Stream :=
  let x := cols / 2
  let y := rows / 2
  placeFood { cols := cols, rows := rows, body := [(x, y), (x - 1, y), (x - 2, y)] } s

/-- A turn, unless it is back. -/
def turn (b : Board) (d : Direction) : Board :=
  if d = b.dir.opposite then b else { b with nextDir := d }

def advance (b : Board) (head : Cell) (s : Stream) : Board × Stream :=
  let eating := head == b.food
  let b := if eating then b else { b with body := b.body.dropLast }
  if b.body.contains head then ({ b with alive := false }, s)
  else
    let b := { b with body := head :: b.body }
    if eating then { b with score := b.score + 1 }.placeFood s else (b, s)

def step (b : Board) (s : Stream) : Board × Stream :=
  if !b.alive then (b, s)
  else
    let b := { b with dir := b.nextDir }
    match b.body with
    | [] => (b, s)
    | head :: _ =>
      let head := shift head b.dir
      if b.contains head then b.advance head s else ({ b with alive := false }, s)

end Board

/-- The width of a cell in pixels when the grid is measured. -/
def cellPx : UInt32 := 16

def hudPx : UInt32 := 24

def clampCols (n : Int) : Int := min (max n 10) 40

def clampRows (n : Int) : Int := min (max n 8) 30

def gridFor (w h : UInt32) : Int × Int :=
  (clampCols (w / cellPx).toNat, clampRows (Drawing.less h hudPx / cellPx).toNat)

def stepSecs : Float32 := 0.12

end Snake

open Snake in
structure Snake where
  seed : Option UInt64
  stream : Stream
  /-- The size of the grid, once a frame has shown it. -/
  measured : Option (Int × Int) := none
  board : Option Board := none
  /-- The time saved up for the next step. -/
  saved : Float32 := 0.0

namespace Snake

def create (seed : Option UInt64) (free : Stream) : Snake :=
  { seed := seed, stream := .ofSeed? seed free }

def start (g : Snake) : Snake :=
  match g.measured with
  | some (cols, rows) =>
    let (board, stream) := Board.create cols rows g.stream
    { g with board := some board, stream := stream }
  | none => g

/-- A game on a grid of its own, which starts at once. -/
def onGrid (cols rows : Int) (seed : Option UInt64) (free : Stream) : Snake :=
  { create seed free with measured := some (clampCols cols, clampRows rows) }.start

def isAlive (g : Snake) : Bool := g.board.all (·.alive)

def score (g : Snake) : Nat := g.board.elim 0 (·.score)

def length (g : Snake) : Nat := g.board.elim 0 (·.body.length)

def step (g : Snake) : Snake :=
  match g.board with
  | some board =>
    let (board, stream) := board.step g.stream
    { g with board := some board, stream := stream }
  | none => g

def restart (g : Snake) : Snake := { g.start with saved := 0.0 }

def press (g : Snake) (key : Key) : Snake :=
  match g.board with
  | none => g
  | some board =>
    if !board.alive then
      if key = .enter || key.lowerChar = some 'r' then g.restart else g
    else
      match Direction.ofKey key with
      | some d => { g with board := some (board.turn d) }
      | none => g

def tick (g : Snake) (dt : Float32) : Snake :=
  let g := if g.board.isNone then g.start else g
  if g.board.isNone then g
  else
    let (n, left) := Clock.due stepSecs (g.saved + Clock.atMost 0.5 dt)
    Nat.repeat step n { g with saved := left }

def reset (g : Snake) : Snake := create g.seed g.stream

def seen (g : Snake) (w h : UInt32) : Snake :=
  { g with measured := some (g.measured.getD (gridFor w h)) }

open Drawing

def drawBoard (b : Board) (w h : UInt32) (font : UInt16) (theme : Theme) : Drawing :=
  let cols := b.cols.toNat.toUInt32
  let rows := b.rows.toNat.toUInt32
  let below := less h hudPx
  let cell := max (min (w / cols) (below / rows)) 1
  let boardW := cell * cols
  let boardH := cell * rows
  let ox := (less w boardW / 2).toInt32
  let oy := hudPx.toInt32 + (less below boardH / 2).toInt32
  let x (p : Cell) : Int32 := ox + Int32.ofInt p.1 * cell.toInt32
  let y (p : Cell) : Int32 := oy + Int32.ofInt p.2 * cell.toInt32
  let foodPx := max (less cell 4) 1
  let partPx := max (less cell 2) 1
  let part (p : Cell × Nat) : Stroke :=
    .rect (x p.1 + 1) (y p.1 + 1) partPx partPx (if p.2 = 0 then theme.accent else theme.text)
  let notice :=
    if b.won then "You win! Enter to play again" else "Game over. Enter to restart"
  outline (ox - 1) (oy - 1) (boardW + 2) (boardH + 2) 1 theme.dim ++
    [.rect (x b.food + 2) (y b.food + 2) foodPx foodPx theme.accent] ++
    b.body.zipIdx.map part ++
    [.text ("Score: " ++ toString b.score) 4 4 font theme.text] ++
    (if b.alive then [] else [centered notice w (h.toInt32 / 2) font theme.accent])

def draw (g : Snake) (w h : UInt32) (theme : Theme) : Drawing :=
  let font := min (fontFor (hudPx * 2) 2) (fontFor h 20)
  clear w h theme.bg ++
    match g.board with
    | none => [centered "loading..." w (h.toInt32 / 2) font theme.dim]
    | some board => drawBoard board w h font theme

end Snake
end PocketTerminal.Arcade
