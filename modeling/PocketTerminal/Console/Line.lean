import PocketTerminal.Key
import PocketTerminal.Text.Decimal

/-! # Lines of driver input

A line names a key, asks for time to pass, or is typed and sent off. -/
namespace PocketTerminal.Console

inductive Line where
  /-- Tokens of keys, in order. -/
  | keys (tokens : List String)
  /-- So many seconds pass. -/
  | wait (secs : Float32)

namespace Line

def waitText? (line : String) : Option String :=
  if Text.begins "@wait " line then some (Text.trim (String.ofList (line.toList.drop 6))) else none

def chomp (line : String) : String :=
  String.ofList (line.toList.reverse.dropWhile fun c => c == '\r' || c == '\n').reverse

/-- The keys that type a text and send it off. -/
def typed (line : String) : List String :=
  line.toList.map (fun c => String.ofList [c]) ++ ["Enter"]

def parse (line : String) : Line :=
  let line := chomp line
  match (waitText? line).bind Text.decimal? with
  | some secs => .wait (if 0.0 < secs then secs else 0.0)
  | none => if (Key.named.lookup line).isSome then .keys [line] else .keys (typed line)

end Line
end PocketTerminal.Console
