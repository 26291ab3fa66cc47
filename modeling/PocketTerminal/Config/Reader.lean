import PocketTerminal.Config.Basic
import PocketTerminal.Document.Json
import PocketTerminal.Document.Toml

/-! # Reading configurations

A configuration is a record in JSON or TOML; what a document leaves out keeps its usual
value. A file's notation is told by its extension. -/
namespace PocketTerminal

open Document (Value Fields Reading)

def Color.ofValue (v : Value) : Option Color :=
  v.text?.bind fun text => (Color.ofHex text).toOption

namespace Theme

def fields : Fields Theme :=
  [("bg", fun t v => (Color.ofValue v).map fun c => { t with bg := c }),
   ("text", fun t v => (Color.ofValue v).map fun c => { t with text := c }),
   ("dim", fun t v => (Color.ofValue v).map fun c => { t with dim := c }),
   ("accent", fun t v => (Color.ofValue v).map fun c => { t with accent := c })]

end Theme

namespace Messages

def fields : Fields Messages :=
  Message.all.map fun message => (message.name, fun m v => v.text?.map (m.set message))

end Messages

namespace Files.Seed

def directoryType? : String → Option Bool
  | "file" => some false
  | "directory" => some true
  | _ => none

/-- The fields of a record whose path may still be missing. -/
def fields (r : Reading) : Fields (Option String × Seed) :=
  [("path", fun s v => v.text?.map fun path => (some path, s.2)),
   ("content", fun s v => v.optional?.map fun text => (s.1, { s.2 with content := text })),
   ("section", fun s v => v.optional?.map fun text => (s.1, { s.2 with pageSection := text })),
   ("type", fun s v => ((r.choice v).bind directoryType?).map fun directory =>
     (s.1, { s.2 with isDirectory := directory }))]

def ofValue (r : Reading) (v : Value) : Option Seed :=
  ((fields r).read r (none, { path := "" }) v).bind fun s =>
    s.1.map fun path => { s.2 with path := path }

end Files.Seed

namespace Config

def fields (r : Reading) : Fields Config :=
  [("prompt", fun c v => v.text?.map fun text => { c with prompt := text }),
   ("intro_lines", fun c v => (v.list?.bind (·.mapM Value.text?)).map fun texts =>
     { c with introLines := texts }),
   ("home_path", fun c v => v.text?.map fun text => { c with homePath := text }),
   ("files", fun c v => (v.list?.bind (·.mapM (Files.Seed.ofValue r))).map fun seeds =>
     { c with files := seeds }),
   ("messages", fun c v => (Messages.fields.read r {} v).map fun m => { c with messages := m }),
   ("theme", fun c v => (Theme.fields.read r {} v).map fun t => { c with theme := t })]

def ofDocument (r : Reading) (fault : Fault) (document : Option Value) : Except Fault Config :=
  match document.bind ((fields r).read r {}) with
  | some c => c.check
  | none => .error fault

def ofJson (text : String) : Except Fault Config :=
  ofDocument Document.Json.reading .notJson (Document.Json.parse text)

def ofToml (text : String) : Except Fault Config :=
  ofDocument Document.Toml.reading .notToml (Document.Toml.parse text)

def lastComponent (path : String) : List Char :=
  let proper := (path.toList.splitOn '/').filter fun part => !part.isEmpty && part != ['.']
  (proper.getLast?.filter (· != ['.', '.'])).getD []

/-- Whether the extension of a file is `json`. A name that starts with its only dot has
no extension. -/
def isJsonFile (path : String) : Bool :=
  let name := lastComponent path
  let ext := (name.reverse.takeWhile (· != '.')).reverse
  ext.length + 1 < name.length && ext.map Char.toLower == ['j', 's', 'o', 'n']

def ofFile (path : String) (text : Option String) : Except Fault Config :=
  match text with
  | none => .error .unreadable
  | some text => if isJsonFile path then ofJson text else ofToml text

end Config
end PocketTerminal
