import PocketTerminal.Shell.Command
import PocketTerminal.Text.Numeral

/-! # Opening files and programs

The commands that lead out of the shell: `open` and `show`, which lead to a section of
the page, and one command for each program. -/
namespace PocketTerminal.Shell.Opening

def imageExtensions : List String := ["png", "jpg", "jpeg", "gif", "svg", "webp", "bmp"]

def audioExtensions : List String := ["mp3", "wav", "ogg", "flac", "m4a"]

/-- The letters behind the last dot of a name, unless nothing is before it. -/
def extension? (name : String) : Option String :=
  let ext := (name.toList.reverse.takeWhile (· != '.')).reverse
  if ext.length + 1 < name.toList.length then
    some (Text.lowerAscii (String.ofList ext))
  else none

def programFor? (name : String) : Option ProgramKind :=
  (extension? name).bind fun ext =>
    if imageExtensions.contains ext then some .viewer
    else if audioExtensions.contains ext then some .music
    else none

def openUsage : String := "open <file>"

def runOpen (args : List String) (env : Environment) : Except Fault Reply :=
  match args with
  | [target] =>
    match env.files.get? target with
    | none => env.refuse .fileNotFound [("file", target)]
    | some e =>
      match e.pageSection, e.content? with
      | some pageSection, _ => .ok (.navigate pageSection)
      | none, none => env.refuse .isADirectory [("path", target)]
      | none, some content =>
        match programFor? e.name with
        | none => .ok (.text content)
        | some kind =>
          .ok (.launch kind
            { title := some e.name, content := if content = "" then none else some content })
  | _ => env.usageFault openUsage

def openCommand : Command where
  name := "open"
  description := "Open a file in the page or a viewer"
  usage := openUsage
  category := "navigation"
  run := reading runOpen

def showUsage : String := "show <section|file>"

def runShow (args : List String) (env : Environment) : Except Fault Reply :=
  match args with
  | [target] =>
    match (env.files.get? target).bind (·.pageSection) with
    | some pageSection => .ok (.navigate pageSection)
    | none =>
      if (env.files.walk "/").any fun v => v.entry.pageSection == some target then
        .ok (.navigate target)
      else env.refuse .noSuchSection [("section", target)]
  | _ => env.usageFault showUsage

def showCommand : Command where
  name := "show"
  description := "Scroll the page to a section"
  usage := showUsage
  category := "navigation"
  run := reading runShow

def description : ProgramKind → String
  | .nano => "Edit a text file"
  | .viewer => "View an image"
  | .music => "Open the music player"
  | .snake => "Play snake"
  | .pong => "Play pong against the computer"
  | .chess => "Play chess"
  | .pacman => "Play pac-man"

def usage : ProgramKind → String
  | .nano => "nano [file]"
  | .viewer => "view [file]"
  | .music => "music [track]"
  | .snake => "snake [--seed N]"
  | .pong => "pong [--seed N]"
  | .chess => "chess [--two-player] [--seed N]"
  | .pacman => "pacman [--seed N]"

def gameOptions (kind : ProgramKind) (launch : Launch) : List String → Option Launch
  | [] => some launch
  | "--seed" :: rest =>
    match rest with
    | number :: rest =>
      match Text.word64? number with
      | some seed => gameOptions kind { launch with seed := some seed } rest
      | none => none
    | [] => none
  | option :: rest =>
    if option = "--two-player" && kind = .chess then
      gameOptions kind { launch with bot := false } rest
    else none

/-- Title and text of a file. Only the viewer needs the file to be there. -/
def fileOptions (kind : ProgramKind) (env : Environment) (target : String) :
    Except Fault Launch :=
  let title := some (Path.fileName (env.files.resolve target))
  match env.files.get? target with
  | some e =>
    match e.content? with
    | some text => .ok { title := title, content := some text }
    | none => env.refuse .isADirectory [("path", target)]
  | none =>
    if kind = .viewer then env.refuse .fileNotFound [("file", target)]
    else .ok { title := title }

def options (kind : ProgramKind) (args : List String) (env : Environment) :
    Except Fault Launch :=
  match kind with
  | .nano | .viewer =>
    match args with
    | [] => .ok {}
    | [target] => fileOptions kind env target
    | _ => env.usageFault (usage kind)
  | .music =>
    match args with
    | [] => .ok {}
    | [track] => .ok { title := some (Path.fileName (env.files.resolve track)) }
    | _ => env.usageFault (usage kind)
  | .snake | .pong | .chess | .pacman =>
    match gameOptions kind {} args with
    | some launch => .ok launch
    | none => env.usageFault (usage kind)

def program (kind : ProgramKind) : Command where
  name := kind.command
  description := description kind
  usage := usage kind
  category := "programs"
  run := reading fun args env => (options kind args env).map (.launch kind)

end PocketTerminal.Shell.Opening
