import PocketTerminal.Arcade.Pacman
import PocketTerminal.Arcade.Pong
import PocketTerminal.Arcade.Snake
import PocketTerminal.Chess.Screen
import PocketTerminal.Programs.Editor
import PocketTerminal.Programs.Kind
import PocketTerminal.Programs.Player
import PocketTerminal.Programs.Viewer

/-! # Running programs

What every program has in common: it takes keys and time, and draws frames. Editor and
snake also learn from a frame how large the area is. -/
namespace PocketTerminal

open Chance (Stream)

inductive Program where
  | nano (editor : Editor)
  | viewer (viewer : Viewer)
  | music (player : Player)
  | snake (game : Arcade.Snake)
  | pong (game : Arcade.Pong)
  | chess (game : Chess.Game)
  | pacman (game : Arcade.Pacman)

namespace Program

/-- A fresh program. Games that no seed fixes take their chances from a free stream. -/
def create (kind : ProgramKind) (l : Launch) (free : Stream) : Program :=
  match kind with
  | .nano => nano (.create (l.title.getD "untitled") (l.content.getD ""))
  | .viewer => viewer (.create (l.title.getD "image") l.content)
  | .music => music (.create (l.title.getD "track"))
  | .snake => snake (.create l.seed free)
  | .pong => pong (.create l.seed free)
  | .chess => chess (.create l.bot l.seed free)
  | .pacman => pacman (.create l.seed free)

def kind : Program → ProgramKind
  | nano _ => .nano
  | viewer _ => .viewer
  | music _ => .music
  | snake _ => .snake
  | pong _ => .pong
  | chess _ => .chess
  | pacman _ => .pacman

def name (p : Program) : String := p.kind.command

def press (key : Key) : Program → Program
  | nano e => nano (e.press key)
  | viewer v => viewer v
  | music m => music (m.press key)
  | snake g => snake (g.press key)
  | pong g => pong (g.press key)
  | chess g => chess (g.press key)
  | pacman g => pacman (g.press key)

def tick (dt : Float32) : Program → Program
  | nano e => nano e
  | viewer v => viewer v
  | music m => music (m.tick dt)
  | snake g => snake (g.tick dt)
  | pong g => pong (g.tick dt)
  | chess g => chess (g.tick dt)
  | pacman g => pacman (g.tick dt)

def draw (w h : UInt32) (theme : Theme) : Program → Drawing
  | nano e => e.draw w h theme
  | viewer v => v.draw w h theme
  | music m => m.draw w h theme
  | snake g => g.draw w h theme
  | pong g => g.draw w h theme
  | chess g => g.draw w h theme
  | pacman g => g.draw w h theme

def seen (w h : UInt32) : Program → Program
  | nano e => nano (e.seen h)
  | snake g => snake (g.seen w h)
  | p => p

def reset : Program → Program
  | nano e => nano e.reset
  | viewer v => viewer v
  | music m => music m.reset
  | snake g => snake g.reset
  | pong g => pong g.reset
  | chess g => chess g.reset
  | pacman g => pacman g.reset

/-- A frame on a surface that refuses the given stroke, if any. When it refuses the very
first one the program learns nothing. -/
def render (w h : UInt32) (theme : Theme) (failing : Option Nat) (p : Program) :
    Painted × Program :=
  ((p.draw w h theme).paint failing, if failing = some 1 then p else p.seen w h)

end Program
end PocketTerminal
