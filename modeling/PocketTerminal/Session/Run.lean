import PocketTerminal.Session.Typing
import PocketTerminal.Text.Lowercase

/-! # Running a session

What a session does with command lines, keys and time. -/
namespace PocketTerminal.Session

open Shell (Environment Reply SyntaxFault)

/-- A variable's value; the working directory is one that nothing else can set. -/
def lookup (s : Session) : Shell.Lookup := fun name =>
  if name = "PWD" then some s.files.cwd else s.vars.get? name

/-- The words of a line, with an alias at the front exchanged once for its words. -/
def expand (s : Session) (line : String) : Except SyntaxFault (List String) :=
  match Shell.tokenizeWith s.lookup line with
  | .error fault => .error fault
  | .ok [] => .ok []
  | .ok (first :: rest) =>
    match s.aliases.get? first with
    | none => .ok (first :: rest)
    | some expansion => (Shell.tokenizeWith s.lookup expansion).map (· ++ rest)

def environment (s : Session) : Environment where
  files := s.files
  vars := s.vars
  aliases := s.aliases
  history := s.history
  messages := s.config.messages

def absorb (s : Session) (env : Environment) : Session :=
  { s with files := env.files, vars := env.vars, aliases := env.aliases, history := env.history }

def freeStream (s : Session) : Chance.Stream × Session :=
  let (seed, entropy) := s.entropy.word64
  (.ofSeed seed, { s with entropy := entropy })

/-- A fresh program gets the keys, whatever has had them before. -/
def launchProgram (s : Session) (kind : ProgramKind) (launch : Launch) : Session :=
  let (free, s) := s.freeStream
  let program := Program.create kind launch free
  let s := s.println (s.say .launching [("program", program.name)])
  { s with running := some program }.notify

def release? (s : Session) (notice : Message) : Option Session :=
  s.running.map fun program =>
    { s with running := none }.println (s.say notice [("program", program.name)])

def exitProgram (s : Session) : Bool × Session :=
  match s.release? .programExited with
  | some s => (true, s.pushPrompt.notify)
  | none => (false, s)

def navigate (s : Session) (pageSection : String) : Session :=
  let s := s.println (s.say .navigating [("section", pageSection)])
  { s with visited := s.visited.map (· ++ [pageSection]) }

def applyReply (s : Session) : Reply → Session
  | .text text => (Text.pieces '\n' text).foldl println s
  | .silent => s
  | .clear => { s with lines := [] }
  | .navigate pageSection => s.navigate pageSection
  | .launch kind launch => s.launchProgram kind launch

def exit (s : Session) : Session :=
  match s.release? .programExited with
  | some s => s
  | none => s.println (s.say .nothingToExit)

def runWords (s : Session) : List String → Session
  | [] => s
  | first :: args =>
    let name := Text.lower first
    match s.registry.dispatch name args s.environment with
    | some (.ok reply, env) => (s.absorb env).applyReply reply
    | some (.error fault, env) => (s.absorb env).println fault.message
    | none =>
      if name = "exit" then s.exit
      else s.println (s.say .commandNotFound [("command", name)])

/-- A line put behind the history, which loses one line, its oldest, when it is full. -/
def remember (s : Session) (line : String) : Session :=
  let history := s.history ++ [line]
  { s with history := if maxHistory < history.length then history.drop 1 else history }

/-- A command line remembered and carried out; a blank one is neither. -/
def runLine (s : Session) (line : String) : Session :=
  if Text.allBlank line then s
  else
    let s := s.remember line
    match s.expand line with
    | .error fault => s.println (s.say .syntaxError [("detail", fault.message)])
    | .ok words => s.runWords words

def launch (s : Session) (line : String) : Session :=
  let s := s.runLine line
  if s.running.isNone then s.pushPrompt else s

def pressProgram (s : Session) (program : Program) (key : Key) : Session :=
  (if key = .escape then ((s.release? .programTerminated).getD s).pushPrompt
   else { s with running := some (program.press key) }).notify

def submit (s : Session) : Session :=
  ({ s with input := "", recalled := none }.launch s.input).notify

def pressShell (s : Session) : Key → Session
  | .enter => s.submit
  | .backspace => s.eraseChar.syncPrompt.notify
  | .char c => (s.typeChar c).syncPrompt.notify
  | .arrowUp => s.recallOlder.syncPrompt.notify
  | .arrowDown => s.recallNewer.syncPrompt.notify
  | .tab => s.complete.syncPrompt.notify
  | .escape | .arrowLeft | .arrowRight => s

def press (s : Session) (key : Key) : Session :=
  match s.running with
  | some program => s.pressProgram program key
  | none => s.pressShell key

def pressToken (s : Session) (token : String) : Session :=
  match Key.parse token with
  | some key => s.press key
  | none => s

def tick (s : Session) (dt : Float32) : Session :=
  match s.running with
  | some program => { s with running := some (program.tick dt) }.notify
  | none => s

end PocketTerminal.Session
