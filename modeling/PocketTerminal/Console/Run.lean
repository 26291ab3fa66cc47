import PocketTerminal.Config.Reader
import PocketTerminal.Console.Demo
import PocketTerminal.Console.Line
import PocketTerminal.Console.Rows
import PocketTerminal.Session.Run
import PocketTerminal.Session.Screen

/-! # The terminal without a screen

Lines are read one at a time, and the screen is printed after each of them. -/
namespace PocketTerminal.Console

def frameSecs : Float32 := 1.0 / 30.0

/-- Time passed frame by frame; none where that would never end. -/
def advance? (s : Session) (secs : Float32) : Option Session :=
  (Clock.slices frameSecs secs).map (·.foldl Session.tick s)

/-- A line handled; none where it asks for more time than can pass. -/
def handle? (s : Session) (line : String) : Option Session :=
  match Line.parse line with
  | .keys tokens => some (tokens.foldl Session.pressToken s)
  | .wait secs => advance? s secs

def ruler : String := String.ofList (List.replicate 40 '-')

def screen (s : Session) : List String × Session :=
  match s.mode with
  | .shell => (s.lines ++ [ruler], s)
  | _ =>
    let (painted, s) := s.render 640 480 none
    (rows painted.strokes ++ [ruler], s)

def visits (s : Session) : List String := (s.visited.getD []).map ("-> #" ++ ·)

def begin (config : Config) (entropy : Chance.Stream := default) : List String × Session :=
  screen { Session.start config entropy with visited := some [] }

def respond? (s : Session) (line : String) : Option (List String × Session) :=
  (handle? { s with visited := some [] } line).map fun s =>
    let (shown, after) := screen s
    (visits s ++ shown, after)

/-- The screens for all lines, up to one that asks for more time than can pass. -/
def respondAll (s : Session) : List String → List String
  | [] => []
  | line :: rest =>
    match respond? s line with
    | some (printed, s) => printed ++ respondAll s rest
    | none => []

def transcript (config : Config) (text : String) : String :=
  let (shown, s) := begin config
  String.join ((shown ++ respondAll s (Text.lines text)).map (· ++ "\n"))

end PocketTerminal.Console
