import PocketTerminal.Arcade.Maze
import PocketTerminal.Canvas
import PocketTerminal.Programs.Clock
import PocketTerminal.Theme

/-! # Pac-Man

Three ghosts share one rule of movement and differ in what they aim at. In a step the
player moves before the ghosts, and who shares a cell is settled after each move. -/
namespace PocketTerminal.Arcade

open Chance (Stream)

namespace Pacman

inductive Style where
  /-- The player's cell. -/
  | chase
  /-- A cell some steps ahead of the player. -/
  | ambush
  /-- Another cell in every step. -/
  | random
deriving DecidableEq, Repr

structure Ghost where
  pos : Cell
  home : Cell
  dir : Option Direction := none
  style : Style
  /-- For how many steps the ghost can be eaten. -/
  scared : Nat := 0
deriving DecidableEq, Repr

inductive Outcome where
  | playing
  | won
  | caught
deriving DecidableEq, Repr

def stepSecs : Float32 := 0.15
def scaredSteps : Nat := 30
/-- The part of all words below which a word makes a ghost forget its aim: 35 in 100. -/
def whim : UInt64 := 0x5999999999999800
/-- How far ahead of the player the ambusher aims. -/
def lead : Int := 4
def pelletPoints : Nat := 10
def powerPoints : Nat := 50
def ghostPoints : Nat := 200

end Pacman

open Pacman in
structure Pacman where
  seed : Option UInt64
  stream : Stream
  maze : Maze
  player : Cell := Maze.playerStart
  dir : Option Direction := none
  nextDir : Option Direction := none
  ghosts : List Ghost
  score : Nat := 0
  outcome : Outcome := .playing
  steps : Nat := 0
  /-- The time saved up for the next step. -/
  saved : Float32 := 0.0

namespace Pacman

def newGhosts : List Ghost :=
  (Maze.ghostHomes.zip [.chase, .ambush, .random]).map fun (home, style) =>
    { pos := home, home := home, style := style }

def create (seed : Option UInt64) (free : Stream) : Pacman :=
  let (maze, stream) := Maze.generate (.ofSeed? seed free)
  { seed := seed, stream := stream, maze := maze, ghosts := newGhosts }

def reset (g : Pacman) : Pacman := create g.seed g.stream

/-- The direction the player goes in, which is the last one asked for once it is open. -/
def heading (g : Pacman) : Option Direction :=
  match g.nextDir with
  | some d => if g.maze.isWall (shift g.player d) then g.dir else some d
  | none => g.dir

def eat (g : Pacman) : Pacman :=
  match g.maze.get g.player with
  | .pellet => { g with score := g.score + pelletPoints, maze := g.maze.set g.player .empty }
  | .power =>
    { g with
      score := g.score + powerPoints
      maze := g.maze.set g.player .empty
      ghosts := g.ghosts.map fun ghost => { ghost with scared := scaredSteps } }
  | .empty | .wall => g

def movePlayer (g : Pacman) : Pacman :=
  let g := { g with dir := g.heading }
  match g.dir with
  | none => g
  | some d =>
    let target := shift g.player d
    if g.maze.isWall target then g else { g with player := target }.eat

def clampTo (high n : Int) : Int := min (max n 0) high

def aim (g : Pacman) (ghost : Ghost) (s : Stream) : Cell × Stream :=
  match ghost.style with
  | .chase => (g.player, s)
  | .ambush =>
    let (dx, dy) := g.dir.elim (0, 0) Direction.delta
    ((clampTo 20 (g.player.1 + dx * lead), clampTo 14 (g.player.2 + dy * lead)), s)
  | .random =>
    let (x, s) := s.between 0 21
    let (y, s) := s.between 0 15
    ((x, y), s)

def firstLeast (measure : Direction → Nat) : List Direction → Option Direction
  | [] => none
  | d :: rest =>
    match firstLeast measure rest with
    | some e => if measure e < measure d then some e else some d
    | none => some d

def lastGreatest (measure : Direction → Nat) : List Direction → Option Direction
  | [] => none
  | d :: rest =>
    match lastGreatest measure rest with
    | some e => if measure e < measure d then some d else some e
    | none => some d

/-- The way that a ghost takes: at a whim any, else the best one for its aim, which for a
scared ghost is the one that leads away. -/
def chooseWay (ghost : Ghost) (ways : List Direction) (target : Cell) (s : Stream) :
    Option Direction × Stream :=
  let (astray, s) := s.chance whim
  if astray then s.choose ways
  else
    let measure (d : Direction) : Nat := distance (shift ghost.pos d) target
    (if 0 < ghost.scared then lastGreatest measure ways else firstLeast measure ways, s)

def moveGhost (g : Pacman) (ghost : Ghost) (s : Stream) : Ghost × Stream :=
  let (target, s) := g.aim ghost s
  let ways := g.maze.exits ghost.pos ghost.dir
  if ways.isEmpty then (ghost, s)
  else
    match chooseWay ghost ways target s with
    | (some d, s) => ({ ghost with pos := shift ghost.pos d, dir := some d }, s)
    | (none, s) => (ghost, s)

/-- The ghosts in turn. Scared ones stay where they are in every second step. -/
def moveEach (g : Pacman) : List Ghost → Stream → List Ghost × Stream
  | [], s => ([], s)
  | ghost :: rest, s =>
    let (ghost, s) :=
      if 0 < ghost.scared && g.steps % 2 == 0 then (ghost, s) else g.moveGhost ghost s
    let (rest, s) := g.moveEach rest s
    (ghost :: rest, s)

def moveGhosts (g : Pacman) : Pacman :=
  let (ghosts, stream) := g.moveEach g.ghosts g.stream
  { g with ghosts := ghosts, stream := stream }

def Ghost.sentHome (ghost : Ghost) : Ghost :=
  { ghost with pos := ghost.home, dir := none, scared := 0 }

/-- The ghosts in the player's cell, in turn: scared ones are eaten, and the first other
one has caught the player. The number is how many were eaten. -/
def contacts (player : Cell) : List Ghost → List Ghost × Nat × Bool
  | [] => ([], 0, false)
  | ghost :: rest =>
    if ghost.pos != player then
      let (rest, eaten, caught) := contacts player rest
      (ghost :: rest, eaten, caught)
    else if 0 < ghost.scared then
      let (rest, eaten, caught) := contacts player rest
      (ghost.sentHome :: rest, eaten + 1, caught)
    else (ghost :: rest, 0, true)

def resolve (g : Pacman) : Pacman :=
  let (ghosts, eaten, caught) := contacts g.player g.ghosts
  { g with
    ghosts := ghosts
    score := g.score + eaten * ghostPoints
    outcome := if caught then .caught else g.outcome }

def elapse (g : Pacman) : Pacman :=
  { g with
    steps := g.steps + 1
    ghosts := g.ghosts.map fun ghost => { ghost with scared := ghost.scared - 1 } }

def step (g : Pacman) : Pacman :=
  if g.outcome != .playing then g
  else
    let g := g.elapse.movePlayer.resolve
    if g.outcome != .playing then g
    else if g.maze.pelletsLeft = 0 then { g with outcome := .won }
    else g.moveGhosts.resolve

def press (g : Pacman) (key : Key) : Pacman :=
  if g.outcome != .playing then
    if key = .enter || key.lowerChar = some 'r' then g.reset else g
  else
    match Direction.ofKey key with
    | some d => { g with nextDir := some d }
    | none => g

def tick (g : Pacman) (dt : Float32) : Pacman :=
  let (n, left) := Clock.due stepSecs (g.saved + Clock.atMost 0.5 dt)
  Nat.repeat step n { g with saved := left }

open Drawing

structure Layout where
  ox : Int32
  oy : Int32
  cell : UInt32

namespace Layout

def ofArea (w h : UInt32) (font : UInt16) : Layout :=
  let hud := font.toUInt32 + 8
  let cell := max (min (w / 21) (less h hud / 15)) 1
  { ox := (less w (cell * 21) / 2).toInt32, oy := hud.toInt32, cell := cell }

def left (l : Layout) (p : Cell) : Int32 := l.ox + Int32.ofInt p.1 * l.cell.toInt32

def top (l : Layout) (p : Cell) : Int32 := l.oy + Int32.ofInt p.2 * l.cell.toInt32

def middle (l : Layout) : Int32 := l.cell.toInt32 / 2

end Layout

def drawTile (l : Layout) (theme : Theme) (p : Cell) : Tile → Drawing
  | .wall => [.rect (l.left p) (l.top p) l.cell l.cell theme.dim]
  | .pellet =>
    let size := max (l.cell / 5) 1
    let half := size.toInt32 / 2
    [.rect (l.left p + l.middle - half) (l.top p + l.middle - half) size size theme.text]
  | .power =>
    disc (l.left p + l.middle) (l.top p + l.middle) (max (l.cell / 3) 1).toUInt16 theme.accent
  | .empty => []

def drawGhost (l : Layout) (theme : Theme) (ghost : Ghost) : Stroke :=
  let inset := l.cell / 6
  let size := max (less l.cell (2 * inset)) 1
  .rect (l.left ghost.pos + inset.toInt32) (l.top ghost.pos + inset.toInt32) size size
    (if 0 < ghost.scared then theme.dim.withAlpha 180 else theme.text)

def banner : Outcome → Option String
  | .playing => none
  | .won => some "You win! Enter to play again"
  | .caught => some "Caught! Enter to restart"

def draw (g : Pacman) (w h : UInt32) (theme : Theme) : Drawing :=
  let font := fontFor h 24
  let l := Layout.ofArea w h font
  let hud := "Score " ++ toString g.score ++ "   Pellets " ++ toString g.maze.pelletsLeft
  clear w h theme.bg ++
    Maze.cells.flatMap (fun p => drawTile l theme p (g.maze.get p)) ++
    g.ghosts.map (drawGhost l theme) ++
    disc (l.left g.player + l.middle) (l.top g.player + l.middle)
      (max (l.cell * 2 / 5) 1).toUInt16 theme.accent ++
    [.text hud 4 4 font theme.text] ++
    ((banner g.outcome).map fun text =>
      centered text w (h.toInt32 / 2) font theme.accent).toList

end Pacman
end PocketTerminal.Arcade
