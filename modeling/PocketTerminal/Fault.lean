/-! # Faults

Everything that can go wrong, by cause. A refusal carries the line that the terminal
shows; a configuration's fault carries what was wrong with it. -/
namespace PocketTerminal

inductive Fault where
  /-- A command's refusal, shown verbatim as one line of output. -/
  | refused (line : String)
  | badColor (text : String)
  | relativeHome (path : String)
  | blankSeedPath
  /-- A configuration file that is missing or is no text. -/
  | unreadable
  | notToml
  | notJson
deriving DecidableEq, Repr, Inhabited

namespace Fault

/-- What is wrong with a configuration whose text could be read. -/
def configDetail? : Fault → Option String
  | badColor text => some ("invalid color: " ++ text)
  | relativeHome path => some ("home_path must be absolute: " ++ path)
  | blankSeedPath => some "seed file with empty path"
  | _ => none

def message : Fault → String
  | refused line => line
  | unreadable => "I/O error"
  | notToml => "TOML parse error"
  | notJson => "JSON error"
  | fault => "config error: " ++ fault.configDetail?.getD ""

end Fault
end PocketTerminal
