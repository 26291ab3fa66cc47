import PocketTerminal.Config.Basic

/-! # The demo portfolio

What a session shows when no configuration is given. -/
namespace PocketTerminal.Console.Demo

open Files (Seed)

def home : String := "/home/visitor"

def file (path content : String) : Seed := { path := path, content := some content }

def linked (path content pageSection : String) : Seed :=
  { path := path, content := some content, pageSection := some pageSection }

def script (name summary command : String) : Seed :=
  file (home ++ "/scripts/" ++ name)
    ("\"\"\"" ++ summary ++ "\"\"\"\n\n# run with: " ++ command)

def seeds : List Seed :=
  [file "/home/visitor/readme.txt" "Welcome to folio!\nType 'help' for available commands.",
   linked "/home/visitor/about.md"
    "# About\nSystems programmer. Likes parsers, games, and small tools." "about",
   linked "/home/visitor/contact.txt" "mail: visitor@example.com" "contact",
   linked "/home/visitor/projects/terminal.md"
    "# Terminal\nThe shell you are typing into." "projects",
   file "/home/visitor/projects/chess.md" "# Chess\nA bot that searches two plies deep.",
   file "/home/visitor/pictures/cat.png" " /\\_/\\\n( o.o )\n > ^ <",
   file "/home/visitor/music/theme.mp3" "",
   file "/home/visitor/.profile" "export EDITOR=nano",
   script "hello_world.py" "Hello world demo." "echo hello, $USER",
   script "snake.py" "Turn-based Snake game." "snake",
   script "pong.py" "Pong against a computer paddle." "pong",
   script "pacman.py" "Pac-Man with three ghosts." "pacman",
   script "chess.py" "Chess against a simple bot." "chess",
   { path := "/tmp", isDirectory := true },
   file "/etc/hostname" "folio"]

def config : Config := { homePath := home, files := seeds }

end PocketTerminal.Console.Demo
