/-! # Programs by name

The programs that a session can hand its keys to, and what one is started with. -/
namespace PocketTerminal

inductive ProgramKind where
  | nano
  | viewer
  | music
  | snake
  | pong
  | chess
  | pacman
deriving DecidableEq, Repr

namespace ProgramKind

def all : List ProgramKind := [nano, viewer, music, snake, pong, chess, pacman]

def command : ProgramKind → String
  | nano => "nano"
  | viewer => "view"
  | music => "music"
  | snake => "snake"
  | pong => "pong"
  | chess => "chess"
  | pacman => "pacman"

def ofName (name : String) : Option ProgramKind := all.find? fun kind => kind.command == name

end ProgramKind

structure Launch where
  /-- The title that the program shows, usually the name of a file. -/
  title : Option String := none
  /-- The document or description to start from. -/
  content : Option String := none
  /-- The number that fixes a game's chances; without one they are free. -/
  seed : Option UInt64 := none
  /-- Whether the computer plays, in a game that has a side for it. -/
  bot : Bool := true
deriving DecidableEq, Repr, Inhabited

end PocketTerminal
