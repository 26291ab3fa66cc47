import PocketTerminal.Arcade.Grid
import PocketTerminal.Chance.Stream

/-! # Mazes

A grid of walls, pellets and empty cells. A maze starts from a lattice of pillars in a
border and gets more walls at random, each of which stays only if every open cell can
still be reached from every other. -/
namespace PocketTerminal.Arcade

open Chance (Stream)

inductive Tile where
  | wall
  | pellet
  | power
  | empty
deriving DecidableEq, Repr, Inhabited

structure Maze where
  tiles : Vector Tile 315
deriving DecidableEq

namespace Maze

def cols : Nat := 21

def rows : Nat := 15

def index? (p : Cell) : Option (Fin 315) :=
  if h : 0 ≤ p.1 ∧ p.1 < 21 ∧ 0 ≤ p.2 ∧ p.2 < 15 then
    some ⟨(p.2 * 21 + p.1).toNat, by omega⟩
  else none

/-- The tile of a cell; all around the grid is wall. -/
def get (m : Maze) (p : Cell) : Tile :=
  match index? p with
  | some i => m.tiles[i]
  | none => .wall

def set (m : Maze) (p : Cell) (tile : Tile) : Maze :=
  match index? p with
  | some i => ⟨m.tiles.set i tile⟩
  | none => m

def isWall (m : Maze) (p : Cell) : Bool := m.get p == .wall

def cells : List Cell := gridCells cols rows

def openCells (m : Maze) : List Cell := cells.filter fun p => !m.isWall p

def isFood (tile : Tile) : Bool := tile == .pellet || tile == .power

def pelletsLeft (m : Maze) : Nat := m.tiles.toList.countP isFood

def isBorder (p : Cell) : Bool := p.1 == 0 || p.2 == 0 || p.1 == 20 || p.2 == 14

def isPillar (p : Cell) : Bool :=
  2 ≤ p.2 && p.2 < 13 && (p.2 - 2) % 3 == 0 && 2 ≤ p.1 && p.1 < 19 && p.1 % 4 == 0

def lattice : Maze :=
  ⟨Vector.ofFn fun i =>
    let p : Cell := (↑(i.val % 21), ↑(i.val / 21))
    if isBorder p || isPillar p then .wall else .pellet⟩

def playerStart : Cell := (10, 13)

def ghostHomes : List Cell := [(9, 7), (10, 7), (11, 7)]

def powerCells : List Cell := [(1, 1), (19, 1), (1, 13), (19, 13)]

def reserved (p : Cell) : Bool :=
  ghostHomes.contains p || powerCells.contains p || distance p playerStart ≤ 1

abbrev Seen := Vector Bool 315

/-- One step of a search from a cell: a neighbour that is open and new is put last in
the queue. -/
def meet (m : Maze) (p : Cell) (found : List Cell × Seen) (d : Direction) : List Cell × Seen :=
  let next := shift p d
  match index? next with
  | some i =>
    if m.isWall next || found.2[i] then found else (found.1 ++ [next], found.2.set i true)
  | none => found

/-- How many cells a search takes from its queue. It takes every cell once at most, so
the number of cells bounds it. -/
def flood (m : Maze) : Nat → List Cell → Seen → Nat
  | 0, _, _ => 0
  | _ + 1, [], _ => 0
  | n + 1, p :: queue, seen =>
    let (queue, seen) := Direction.all.foldl (m.meet p) (queue, seen)
    m.flood n queue seen + 1

def seenOnly (p : Cell) : Seen :=
  match index? p with
  | some i => (Vector.replicate 315 false).set i true
  | none => Vector.replicate 315 false

def allOpenConnected (m : Maze) : Bool :=
  match m.openCells with
  | [] => false
  | start :: rest => m.flood 315 [start] (seenOnly start) == rest.length + 1

def tryWall (m : Maze) (s : Stream) : Maze × Stream :=
  let (x, s) := s.between 1 20
  let (y, s) := s.between 1 14
  let p := (x, y)
  if reserved p || m.isWall p then (m, s)
  else
    let walled := m.set p .wall
    (if walled.allOpenConnected then walled else walled.set p .pellet, s)

def tryWalls : Nat → Maze → Stream → Maze × Stream
  | 0, m, s => (m, s)
  | n + 1, m, s =>
    let (m, s) := m.tryWall s
    tryWalls n m s

/-- Power pellets in the corners, and nothing where the player starts. -/
def furnish (m : Maze) : Maze :=
  (powerCells.foldl (fun m p => m.set p .power) m).set playerStart .empty

def generate (s : Stream) : Maze × Stream :=
  let (m, s) := tryWalls 40 lattice s
  (m.furnish, s)

/-- The ways out of a cell. The way back is one of them only where there is no other. -/
def exits (m : Maze) (p : Cell) (dir : Option Direction) : List Direction :=
  let ways := Direction.all.filter fun d => !m.isWall (shift p d)
  let forward := ways.filter fun d => some d.opposite != dir
  if forward.isEmpty then ways else forward

end Maze
end PocketTerminal.Arcade
