import PocketTerminal.Config.Messages
import PocketTerminal.Files.Seeds
import PocketTerminal.Theme

/-! # Configurations

What the host hands to a session: prompt, greeting, home directory, the records the file
system starts from, message templates and colors. -/
namespace PocketTerminal

structure Config where
  /-- The prompt, in which `cwd` in braces stands for the working directory. -/
  prompt : String := "visitor@folio:\x7bcwd\x7d$ "
  /-- The lines shown once at the start. -/
  introLines : List String := ["Welcome to folio.", "Type 'help' to list commands."]
  homePath : String := Files.Store.usualHome
  files : List Files.Seed := []
  messages : Messages := {}
  theme : Theme := {}

namespace Config

instance : Inhabited Config := ⟨{}⟩

/-- A configuration whose home is absolute and whose records all have a path. -/
def check (c : Config) : Except Fault Config :=
  if !Text.begins "/" c.homePath then .error (.relativeHome c.homePath)
  else if c.files.any fun seed => Text.allBlank seed.path then .error .blankSeedPath
  else .ok c

end Config
end PocketTerminal
