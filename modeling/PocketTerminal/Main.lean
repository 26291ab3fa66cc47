import PocketTerminal.Console.Run

/-! # The command line

Reads lines from standard input and prints the screen after each. The first argument or
the environment names a configuration file; without one the demo portfolio is shown. -/
namespace PocketTerminal.Console

def readText? (path : String) : IO (Option String) := do
  try
    return some (← IO.FS.readFile path)
  catch _ =>
    return none

def loadConfig (args : List String) : IO (Except Fault Config) := do
  let path ← match args with
    | path :: _ => pure (some path)
    | [] => IO.getEnv "FOLIO_CONFIG"
  match path with
  | none => return .ok Demo.config
  | some path => return Config.ofFile path (← readText? path)

/-- A stream that nobody can foresee. -/
def freshEntropy : IO Chance.Stream := do
  let bytes ← IO.getRandomBytes 8
  return .ofSeed (bytes.foldl (fun n b => n * 256 + b.toUInt64) 0)

def printAll (lines : List String) : IO Unit := do
  let output ← IO.getStdout
  for line in lines do
    output.putStrLn line
  output.flush

/-- Answers lines until the input ends. -/
partial def converse (input : IO.FS.Stream) (s : Session) : IO UInt32 := do
  let line ← input.getLine
  if line.isEmpty then return 0
  match respond? s ((Text.lines line).headD "") with
  | some (printed, s) =>
    printAll printed
    converse input s
  | none =>
    (← IO.getStderr).putStrLn "this much time never passes"
    return 1

end PocketTerminal.Console

open PocketTerminal Console in
def main (args : List String) : IO UInt32 := do
  match ← loadConfig args with
  | .error fault =>
    (← IO.getStderr).putStrLn ("Error: loading config: " ++ fault.message)
    return 1
  | .ok config =>
    let (shown, s) := begin config (← freshEntropy)
    printAll shown
    converse (← IO.getStdin) s
