import PocketTerminal.Canvas
import PocketTerminal.Chess.Opponent
import PocketTerminal.Key
import PocketTerminal.Theme

/-! # A game of chess

A position under a cursor. A pawn that reaches the last rank waits for its promotion, and
where the computer plays, it plays black after a short delay. -/
namespace PocketTerminal.Chess

open Chance (Stream)

structure Game where
  seed : Option UInt64
  stream : Stream
  position : Position := .initial
  /-- The status of the position when the last move was made. -/
  status : Status := .playing
  cursor : Square := ⟨4, 1⟩
  selected : Option Square := none
  /-- The squares of the pawn's move that waits for a promotion. -/
  pending : Option (Square × Square) := none
  /-- The side that the computer plays. -/
  bot : Option Side := none
  /-- How long it has been the computer's turn. -/
  timer : Float32 := 0.0
  lastMove : Option Move := none

namespace Game

def botDelay : Float32 := 0.4

def create (bot : Bool) (seed : Option UInt64) (free : Stream) : Game :=
  { seed := seed, stream := .ofSeed? seed free, bot := if bot then some .black else none }

def reset (g : Game) : Game := create g.bot.isSome g.seed g.stream

def finishMove (g : Game) (m : Move) : Game :=
  match g.position.play m with
  | (true, position) =>
    { g with position := position, lastMove := some m, status := position.status, timer := 0.0 }
  | (false, _) => g

/-- A move by its squares, with whether it was one. A pawn's move to the last rank waits. -/
def tryMove (g : Game) (source target : Square) : Bool × Game :=
  if g.status.isOver || g.pending.isSome then (false, g)
  else
    match (g.position.legalMovesFrom source).filter fun m => m.target == target with
    | [] => (false, g)
    | [m] =>
      if m.promotion.isNone then (true, g.finishMove m)
      else (true, { g with pending := some (source, target) })
    | _ => (true, { g with pending := some (source, target) })

def promote (g : Game) (kind : PieceKind) : Bool × Game :=
  match g.pending with
  | none => (false, g)
  | some (source, target) =>
    if kind = .pawn || kind = .king then (false, g)
    else
      (true, { g with pending := none }.finishMove { source, target, promotion := some kind })

def isBotTurn (g : Game) : Bool := g.bot == some g.position.sideToMove

/-- What Enter does: it selects a piece under the cursor, or moves the selected one there. -/
def activate (g : Game) : Game :=
  if g.status.isOver then g.reset
  else if g.isBotTurn || g.pending.isSome then g
  else if g.selected = some g.cursor then { g with selected := none }
  else if (g.position.at? g.cursor).any fun piece => piece.side == g.position.sideToMove then
    { g with selected := some g.cursor }
  else
    match g.selected with
    | none => g
    | some source =>
      match g.tryMove source g.cursor with
      | (true, g) => { g with selected := none }
      | (false, g) => g

def moveCursor (g : Game) (d : Int × Int) : Game :=
  { g with cursor := (g.cursor.offset d).getD g.cursor }

def pressPromotion (g : Game) (key : Key) : Game :=
  match key.lowerChar.bind PieceKind.ofPromotionKey with
  | some kind => (g.promote kind).2
  | none => g

def press (g : Game) (key : Key) : Game :=
  if g.pending.isSome then g.pressPromotion key
  else
    match key with
    | .arrowUp => g.moveCursor (0, 1)
    | .arrowDown => g.moveCursor (0, -1)
    | .arrowLeft => g.moveCursor (-1, 0)
    | .arrowRight => g.moveCursor (1, 0)
    | .enter | .char ' ' => g.activate
    | .char c => if c.toLower = 'r' && g.status.isOver then g.reset else g
    | _ => g

/-- The computer's move: whatever a pawn was to become, it becomes a queen. -/
def botMove (g : Game) : Game :=
  let (m, stream) := pickMove g.position g.stream
  let g := { g with stream := stream }
  match m with
  | some m => g.finishMove { m with promotion := m.promotion.map fun _ => .queen }
  | none => g

def tick (g : Game) (dt : Float32) : Game :=
  if !g.isBotTurn || g.status.isOver then g
  else
    let g := { g with timer := g.timer + dt }
    if g.timer < botDelay then g else g.botMove

end Game
end PocketTerminal.Chess
