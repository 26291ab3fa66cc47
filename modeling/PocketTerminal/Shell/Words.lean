import PocketTerminal.Text.Blank

/-! # Words of a command line

A line is scanned once, without knowing any variable, into templates: each word is a
list of pieces, and a piece is a character, a variable's name, or the mark that a quote
was opened. Only then are the values put in, so no character of a value can end a word,
open a quote or start a variable. -/
namespace PocketTerminal.Shell

inductive SyntaxFault where
  | unterminatedSingle
  | unterminatedDouble
  | badSubstitution
deriving DecidableEq, Repr

def SyntaxFault.message : SyntaxFault → String
  | unterminatedSingle => "unterminated single quote"
  | unterminatedDouble => "unterminated double quote"
  | badSubstitution => "bad substitution"

inductive Piece where
  | char (c : Char)
  | var (name : String)
  /-- A quote was opened here: the word counts even when it is empty. -/
  | quote
deriving DecidableEq, Repr

abbrev Template := List Piece

abbrev Lookup := String → Option String

namespace Piece

def value (lookup : Lookup) : Piece → List Char
  | char c => [c]
  | var name => ((lookup name).getD "").toList
  | quote => []

/-- Whether the piece makes its word count: a variable does when its value is not empty. -/
def counts (lookup : Lookup) : Piece → Bool
  | var name => !((lookup name).getD "").toList.isEmpty
  | _ => true

end Piece

/-- The word that a template stands for, if any piece of it counts. -/
def Template.expand? (lookup : Lookup) (template : Template) : Option String :=
  if template.any (Piece.counts lookup) then
    some (String.ofList (template.flatMap (Piece.value lookup)))
  else none

/-- Where the scan stands. A variable's name is read in `dollar`, `name` and `braced`,
inside double quotes or not; names are held reversed. -/
inductive Place where
  | bare
  | single
  | double
  /-- Behind a backslash outside quotes. -/
  | escaped
  /-- Behind a backslash inside double quotes. -/
  | escapedInDouble
  | dollar (inDouble : Bool)
  | name (inDouble : Bool) (chars : List Char)
  | braced (inDouble : Bool) (chars : List Char)
deriving DecidableEq, Repr

/-- The templates found so far and the one being read, both last first. -/
structure Scan where
  found : List Template := []
  word : List Piece := []
  place : Place := .bare
deriving DecidableEq, Repr

namespace Scan

def push (s : Scan) (piece : Piece) : Scan := { s with word := piece :: s.word }

def goto (s : Scan) (place : Place) : Scan := { s with place := place }

def endWord (s : Scan) : Scan :=
  if s.word.isEmpty then s else { s with found := s.word.reverse :: s.found, word := [] }

def bareStep (expanding : Bool) (s : Scan) (c : Char) : Scan :=
  if c = '\'' then (s.push .quote).goto .single
  else if c = '"' then (s.push .quote).goto .double
  else if c = '\\' then s.goto .escaped
  else if c = '$' && expanding then s.goto (.dollar false)
  else if Text.isBlank c then s.endWord.goto .bare
  else (s.push (.char c)).goto .bare

def doubleStep (expanding : Bool) (s : Scan) (c : Char) : Scan :=
  if c = '"' then s.goto .bare
  else if c = '\\' then s.goto .escapedInDouble
  else if c = '$' && expanding then s.goto (.dollar true)
  else (s.push (.char c)).goto .double

def aroundStep (expanding inDouble : Bool) : Scan → Char → Scan :=
  if inDouble then doubleStep expanding else bareStep expanding

/-- One character. Without `expanding` a dollar sign is a character like any other. -/
def step (expanding : Bool) (s : Scan) (c : Char) : Scan :=
  match s.place with
  | .bare => bareStep expanding s c
  | .single => if c = '\'' then s.goto .bare else s.push (.char c)
  | .double => doubleStep expanding s c
  | .escaped => (s.push (.char c)).goto .bare
  | .escapedInDouble =>
    if c = '"' || c = '\\' || c = '$' then (s.push (.char c)).goto .double
    else doubleStep expanding (s.push (.char '\\')) c
  | .dollar inDouble =>
    if c = '{' then s.goto (.braced inDouble [])
    else if Text.isNameChar c then s.goto (.name inDouble [c])
    else aroundStep expanding inDouble (s.push (.char '$')) c
  | .name inDouble chars =>
    if Text.isNameChar c then s.goto (.name inDouble (c :: chars))
    else aroundStep expanding inDouble (s.push (.var (String.ofList chars.reverse))) c
  | .braced inDouble chars =>
    if c = '}' then
      (s.push (.var (String.ofList chars.reverse))).goto (if inDouble then .double else .bare)
    else s.goto (.braced inDouble (c :: chars))

def finish (s : Scan) : Except SyntaxFault (List Template) :=
  match s.place with
  | .bare | .escaped => .ok s.endWord.found.reverse
  | .single => .error .unterminatedSingle
  | .double | .escapedInDouble | .dollar true | .name true _ => .error .unterminatedDouble
  | .dollar false => .ok (s.push (.char '$')).endWord.found.reverse
  | .name false chars =>
    .ok (s.push (.var (String.ofList chars.reverse))).endWord.found.reverse
  | .braced _ _ => .error .badSubstitution

end Scan

def templates (expanding : Bool) (line : List Char) : Except SyntaxFault (List Template) :=
  (line.foldl (Scan.step expanding) {}).finish

def tokenize (line : String) : Except SyntaxFault (List String) :=
  (templates false line.toList).map (List.filterMap (Template.expand? fun _ => none))

def tokenizeWith (lookup : Lookup) (line : String) : Except SyntaxFault (List String) :=
  (templates true line.toList).map (List.filterMap (Template.expand? lookup))

end PocketTerminal.Shell
