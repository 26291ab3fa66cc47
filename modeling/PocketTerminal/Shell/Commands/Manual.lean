import PocketTerminal.Shell.Command

/-! # The manual

One page for every command, built-ins included. -/
namespace PocketTerminal.Shell.Manual

def pages : List (String × String × String) :=
  [("alias", "alias [name[=value]]",
    "Define an alias, show one, or list all of them."),
   ("cat", "cat <file...>",
    "Print the contents of one or more files."),
   ("cd", "cd [path]",
    "Change the working directory. With no path, go home."),
   ("chess", "chess [--two-player] [--seed N]",
    "Play chess against a bot that plays black."),
   ("clear", "clear",
    "Erase the terminal output."),
   ("cp", "cp [-r] <source> <dest>",
    "Copy a file or a whole directory tree."),
   ("echo", "echo [text...]",
    "Print the arguments separated by spaces."),
   ("env", "env",
    "List shell variables as NAME=value."),
   ("exit", "exit",
    "Leave the running program and return to the shell."),
   ("export", "export NAME=value...",
    "Set shell variables for $NAME expansion."),
   ("find", "find [path] [-name <glob>]",
    "List paths below a directory, optionally by name."),
   ("grep", "grep [-i] [-r] <pattern> <path...>",
    "Print lines matching a pattern (* matches anything) as path:line:text."),
   ("head", "head [-n N] <file>",
    "Print the first N lines of a file (default 10)."),
   ("help", "help [command]",
    "List every command, or describe one."),
   ("history", "history [-c]",
    "List previous command lines, or clear them with -c."),
   ("ls", "ls [-a] [-l] [path]",
    "List a directory. -a shows dotfiles, -l shows types."),
   ("man", "man <topic>",
    "Show the manual page for a topic."),
   ("mkdir", "mkdir [-p] <dir...>",
    "Create directories. -p creates missing parents."),
   ("music", "music [track]",
    "Open the music player."),
   ("mv", "mv <source> <dest>",
    "Move or rename a file or directory."),
   ("nano", "nano [file]",
    "Edit a file. Press Escape to leave."),
   ("open", "open <file>",
    "Open a file in the page, a viewer, or the terminal."),
   ("pacman", "pacman [--seed N]",
    "Eat every pellet while avoiding three ghosts."),
   ("pong", "pong [--seed N]",
    "Keep the ball in play with the left and right keys."),
   ("pwd", "pwd",
    "Print the working directory."),
   ("rm", "rm [-r] [-f] <path...>",
    "Remove files. Directories with contents need -r."),
   ("rmdir", "rmdir <dir...>",
    "Remove empty directories."),
   ("show", "show <section|file>",
    "Scroll the page to a section."),
   ("snake", "snake [--seed N]",
    "Grow the snake by eating food. Avoid walls and yourself."),
   ("tail", "tail [-n N] <file>",
    "Print the last N lines of a file (default 10)."),
   ("touch", "touch <file...>",
    "Create empty files."),
   ("tree", "tree [path]",
    "Draw the directory tree."),
   ("unalias", "unalias <name...>",
    "Remove aliases."),
   ("unset", "unset NAME...",
    "Remove shell variables."),
   ("view", "view [file]",
    "Show an image file."),
   ("wc", "wc <file>",
    "Count lines, words and characters."),
   ("which", "which <command>",
    "Tell whether a name is a command, a built-in or an alias."),
   ("whoami", "whoami",
    "Print the current user.")]

def page (name synopsis description : String) : String :=
  "NAME\n    " ++ name ++ "\n\nSYNOPSIS\n    " ++ synopsis ++
    "\n\nDESCRIPTION\n    " ++ description

def runMan (args : List String) (env : Environment) : Except Fault Reply :=
  match args with
  | [topic] =>
    let topic := Text.lowerAscii topic
    match pages.lookup topic with
    | some (synopsis, description) => .ok (.text (page topic synopsis description))
    | none => env.refuse .noManualEntry [("topic", topic)]
  | _ => env.usageFault "man <topic>"

def man : Command where
  name := "man"
  description := "Show the manual for a command"
  usage := "man <topic>"
  category := "shell"
  run := reading runMan

end PocketTerminal.Shell.Manual
