import PocketTerminal.Document.Value
import PocketTerminal.Text.Numeral

/-! # TOML documents

A reader for the grammar of TOML 1.0. It goes through a text once, and answers what it
has read beside the rest of the text. A table may be written once; keys with dots build
tables of their own, which only more such keys may extend. -/
namespace PocketTerminal.Document.Toml

/-- What a reader has read and what is left, or nothing where the text is wrong. -/
abbrev Read (α : Type) := Option (α × List Char)

/-- Lists, braces and keys may not go deeper than this. -/
def depthLimit : Nat := 80

def isSpace (c : Char) : Bool := c == ' ' || c == '\t'

def skip (cs : List Char) : List Char := cs.dropWhile isSpace

def isPlain (c : Char) : Bool := c == '\t' || (0x20 ≤ c.toNat && c.toNat != 0x7F)

def newline? : List Char → Option (List Char)
  | '\n' :: cs => some cs
  | '\r' :: '\n' :: cs => some cs
  | _ => none

def comment : List Char → List Char
  | '#' :: cs => cs.dropWhile isPlain
  | cs => cs

def gap : Nat → List Char → List Char
  | 0, cs => cs
  | n + 1, cs =>
    let rest := comment (skip cs)
    match newline? rest with
    | some rest => gap n rest
    | none => rest

def lineEnd (cs : List Char) : Option (List Char) :=
  match comment (skip cs) with
  | [] => some []
  | cs => newline? cs

def scalar? (digits : List Char) : Option Char :=
  (digits.mapM Text.hexValue?).bind fun values =>
    let n := values.foldl (fun n v => n * 16 + v) 0
    if n < 0xD800 || (0xDFFF < n && n < 0x110000) then some (Char.ofNat n) else none

def escape? : Char → Option Char
  | 'b' => some '\x08'
  | 't' => some '\t'
  | 'n' => some '\n'
  | 'f' => some '\x0c'
  | 'r' => some '\r'
  | '"' => some '"'
  | '\\' => some '\\'
  | _ => none

def cons (c : Char) (p : List Char × List Char) : List Char × List Char := (c :: p.1, p.2)

def basic : List Char → Read (List Char)
  | [] => none
  | '"' :: rest => some ([], rest)
  | '\\' :: 'u' :: a :: b :: c :: d :: rest =>
    (scalar? [a, b, c, d]).bind fun x => (basic rest).map (cons x)
  | '\\' :: 'U' :: a :: b :: c :: d :: e :: f :: g :: h :: rest =>
    (scalar? [a, b, c, d, e, f, g, h]).bind fun x => (basic rest).map (cons x)
  | '\\' :: c :: rest => (escape? c).bind fun x => (basic rest).map (cons x)
  | c :: rest => if isPlain c then (basic rest).map (cons c) else none

def literal : List Char → Read (List Char)
  | [] => none
  | '\'' :: rest => some ([], rest)
  | c :: rest => if isPlain c then (literal rest).map (cons c) else none

def foldedLine (cs : List Char) : Option (List Char) :=
  (newline? (skip cs)).map (·.dropWhile fun c => isSpace c || c == '\n' || c == '\r')

def returnsPaired : List Char → Bool
  | [] => true
  | '\r' :: '\n' :: cs => returnsPaired cs
  | '\r' :: _ => false
  | _ :: cs => returnsPaired cs

/-- A text of several lines, in which a run of three quotes or more ends it; up to two
quotes before the last three belong to the text. Without escapes a backslash is plain. -/
def multiline (quote : Char) (escapes : Bool) : Nat → List Char → Read (List Char)
  | 0, _ => none
  | n + 1, cs =>
    match cs with
    | [] => none
    | '\r' :: '\n' :: rest | '\n' :: rest => (multiline quote escapes n rest).map (cons '\n')
    | c :: rest =>
      if c = quote then
        let run := cs.takeWhile (· == quote)
        if run.length < 3 then (multiline quote escapes n rest).map (cons quote)
        else
          let extra := min (run.length - 3) 2
          some (List.replicate extra quote, cs.drop (extra + 3))
      else if c = '\\' && escapes then
        match foldedLine rest with
        | some after =>
          if returnsPaired (rest.take (rest.length - after.length)) then
            multiline quote escapes n after
          else none
        | none =>
          match rest with
          | 'u' :: a :: b :: c :: d :: rest =>
            (scalar? [a, b, c, d]).bind fun x => (multiline quote escapes n rest).map (cons x)
          | 'U' :: a :: b :: c :: d :: e :: f :: g :: h :: rest =>
            (scalar? [a, b, c, d, e, f, g, h]).bind fun x =>
              (multiline quote escapes n rest).map (cons x)
          | c :: rest => (escape? c).bind fun x => (multiline quote escapes n rest).map (cons x)
          | [] => none
      else if isPlain c then (multiline quote escapes n rest).map (cons c)
      else none

/-- A text of several lines behind its opening quotes: a line's end there is dropped. -/
def multilineText (quote : Char) (escapes : Bool) (cs : List Char) : Read (List Char) :=
  let cs := (newline? cs).getD cs
  multiline quote escapes (cs.length + 1) cs

def isBareKey (c : Char) : Bool := c.isAlphanum || c == '_' || c == '-'

def simpleKey (cs : List Char) : Read String :=
  match cs with
  | '"' :: rest => (basic rest).map fun p => (String.ofList p.1, p.2)
  | '\'' :: rest => (literal rest).map fun p => (String.ofList p.1, p.2)
  | cs =>
    let name := cs.takeWhile isBareKey
    if name.isEmpty then none else some (String.ofList name, cs.dropWhile isBareKey)

def dottedKey : Nat → List Char → Read (List String)
  | 0, _ => none
  | n + 1, cs =>
    match simpleKey (skip cs) with
    | none => none
    | some (name, rest) =>
      match skip rest with
      | '.' :: rest => (dottedKey n rest).map fun p => (name :: p.1, p.2)
      | rest => some ([name], rest)

def key (cs : List Char) : Read (List String) :=
  match dottedKey (cs.length + 1) cs with
  | some (path, rest) => if path.length < depthLimit then some (path, rest) else none
  | none => none

/-- Digits with single underscores between them, and what follows; the flag tells that
an underscore has just been read, behind which a digit has to come. -/
def underscored (digit : Char → Bool) (pending : Bool) : List Char → Read (List Char)
  | [] => if pending then none else some ([], [])
  | c :: cs =>
    if digit c then (underscored digit false cs).map (cons c)
    else if pending then none
    else if c = '_' then underscored digit true cs
    else some ([], c :: cs)

def digitRun (digit : Char → Bool) (cs : List Char) : Read (List Char) :=
  if (cs.head?.map digit).getD false then underscored digit false cs else none

def withoutSign : List Char → List Char
  | '+' :: cs | '-' :: cs => cs
  | cs => cs

def wholePart (cs : List Char) : Read (List Char) :=
  match cs with
  | '0' :: rest => some (['0'], rest)
  | cs => digitRun Char.isDigit cs

def isSignedMinus (cs : List Char) : Bool := cs.head? = some '-'

def integerBound : Nat := 1 <<< 63

def fitsInteger (negative : Bool) (n : Nat) : Bool :=
  if negative then n ≤ integerBound else n < integerBound

def radixValue (base : Nat) (cs : List Char) : Nat :=
  cs.foldl (fun n c => n * base + (Text.hexValue? c).getD 0) 0

def radixNumber (base : Nat) (digit : Char → Bool) (cs : List Char) : Read Value :=
  match digitRun digit cs with
  | some (digits, rest) =>
    if fitsInteger false (radixValue base digits) then some (.scalar, rest) else none
  | none => none

/-- The least decimal that rounds to no finite number of 64 bits: the greatest of them is
`2 ^ 1024 - 2 ^ 971`, and half a step above it lies `2 ^ 1024 - 2 ^ 970`. -/
def floatBound : Nat := (1 <<< 1024) - (1 <<< 970)

def isFinite (digits : List Char) (power : Int) : Bool :=
  let digits := digits.dropWhile (· == '0')
  let magnitude := power + digits.length
  if digits.isEmpty || magnitude < 300 then true
  else if 320 < magnitude then false
  else
    let n := Text.digitsValue digits
    if 0 ≤ power then n * Nat.pow 10 power.toNat < floatBound
    else n < floatBound * Nat.pow 10 (-power).toNat

def exponentPart : List Char → Option (Bool × Int × List Char)
  | 'e' :: cs | 'E' :: cs =>
    match digitRun Char.isDigit (withoutSign cs) with
    | some (digits, rest) =>
      let n : Int := Text.digitsValue digits
      some (true, if isSignedMinus cs then -n else n, rest)
    | none => none
  | cs => some (false, 0, cs)

def fractionPart : List Char → Option (Bool × List Char × List Char)
  | '.' :: cs => (digitRun Char.isDigit cs).map fun p => (true, p.1, p.2)
  | cs => some (false, [], cs)

def decimalNumber (cs : List Char) : Option (Value × List Char) := do
  let negative := isSignedMinus cs
  let (digits, rest) ← wholePart (withoutSign cs)
  let (hasFraction, places, rest) ← fractionPart rest
  let (hasExponent, power, rest) ← exponentPart rest
  if hasFraction || hasExponent then
    if negative || isFinite (digits ++ places) (power - places.length) then
      return (.scalar, rest)
    else none
  else if fitsInteger negative (Text.digitsValue digits) then return (.scalar, rest)
  else none

def number (cs : List Char) : Read Value :=
  match cs with
  | '0' :: 'x' :: rest => radixNumber 16 (fun c => (Text.hexValue? c).isSome) rest
  | '0' :: 'o' :: rest => radixNumber 8 (fun c => '0' ≤ c && c ≤ '7') rest
  | '0' :: 'b' :: rest => radixNumber 2 (fun c => c == '0' || c == '1') rest
  | cs =>
    match withoutSign cs with
    | 'i' :: 'n' :: 'f' :: rest | 'n' :: 'a' :: 'n' :: rest => some (.scalar, rest)
    | _ => decimalNumber cs

def fixedDigits (n : Nat) (cs : List Char) : Read Nat :=
  let digits := cs.take n
  if digits.length = n && digits.all Char.isDigit then
    some (Text.digitsValue digits, cs.drop n)
  else none

def daysOf (year month : Nat) : Nat :=
  if month = 2 then
    if year % 4 = 0 && (year % 100 != 0 || year % 400 = 0) then 29 else 28
  else if month = 4 || month = 6 || month = 9 || month = 11 then 30
  else 31

/-- How the reading of a date or a time can end. -/
inductive Clocked where
  /-- There is none here. -/
  | absent
  /-- There is the start of one, and it is wrong. -/
  | wrong
  | read (rest : List Char)

def time (cs : List Char) : Clocked :=
  match fixedDigits 2 cs with
  | some (hour, ':' :: rest) =>
    if 23 < hour then .absent
    else
      match fixedDigits 2 rest with
      | some (minute, ':' :: rest) =>
        match fixedDigits 2 rest with
        | some (second, rest) =>
          if 59 < minute || 60 < second then .wrong
          else
            match rest with
            | '.' :: more =>
              if (more.takeWhile Char.isDigit).isEmpty then .read rest
              else .read (more.dropWhile Char.isDigit)
            | rest => .read rest
        | none => .wrong
      | _ => .wrong
  | _ => .absent

def offset (cs : List Char) : Clocked :=
  match cs with
  | 'Z' :: rest | 'z' :: rest => .read rest
  | '+' :: rest | '-' :: rest =>
    match fixedDigits 2 rest with
    | some (hour, ':' :: rest) =>
      match fixedDigits 2 rest with
      | some (minute, rest) => if 23 < hour || 59 < minute then .wrong else .read rest
      | none => .wrong
    | _ => .wrong
  | cs => .read cs

def dateTime (cs : List Char) : Clocked :=
  match fixedDigits 4 cs with
  | some (year, '-' :: rest) =>
    match fixedDigits 2 rest with
    | some (month, '-' :: rest) =>
      match fixedDigits 2 rest with
      | some (day, rest) =>
        if month = 0 || 12 < month || day = 0 || daysOf year month < day then .wrong
        else
          match rest with
          | c :: after =>
            if c = 'T' || c = 't' || c = ' ' then
              match time after with
              | .read rest => offset rest
              | .absent => .read rest
              | .wrong => .wrong
            else .read rest
          | [] => .read rest
      | none => .wrong
    | _ => .wrong
  | _ => time cs

/-- What a key of a table under construction holds: a finished value, a table, or the
tables of a list written under headers, the last one first. -/
inductive Item where
  | value (v : Value)
  | table (implicit dotted : Bool) (entries : List (String × Item))
  | tables (items : List (List (String × Item)))

abbrev Entries := List (String × Item)

def setEntry (name : String) (item : Item) : Entries → Entries
  | [] => [(name, item)]
  | entry :: rest =>
    if entry.1 = name then (name, item) :: rest else entry :: setEntry name item rest

/-- The change of the table that a path of keys leads to. Tables on the way are created.
The change of a table gets its entries and whether dotted keys made it. With `dotted`
the way leads only through tables that no header has opened. -/
def descend (dotted : Bool) (change : Bool → Entries → Option Entries) :
    Bool → List String → Entries → Option Entries
  | made, [], entries => change made entries
  | _, name :: path, entries =>
    match entries.lookup name with
    | none =>
      (descend dotted change dotted path []).map fun inner =>
        setEntry name (.table true dotted inner) entries
    | some (.table implicit made inner) =>
      if dotted && !implicit then none
      else
        (descend dotted change made path inner).map fun inner =>
          setEntry name (.table implicit made inner) entries
    | some (.tables (last :: before)) =>
      (descend dotted change false path last).map fun inner =>
        setEntry name (.tables (inner :: before)) entries
    | some _ => none

def assign (entries : Entries) (path : List String) (v : Value) : Option Entries :=
  match path.getLast? with
  | none => none
  | some name =>
    let path := path.dropLast
    descend true (fun made entries =>
      if made != path.isEmpty && (entries.lookup name).isNone then
        some (setEntry name (.value v) entries)
      else none) false path entries

mutual

def Item.toValue : Item → Value
  | .value v => v
  | .table _ _ entries => .table (entryValues entries)
  | .tables items => .list (tableValues items).reverse

def entryValues : List (String × Item) → List (String × Value)
  | [] => []
  | (name, item) :: rest => (name, item.toValue) :: entryValues rest

def tableValues : List (List (String × Item)) → List Value
  | [] => []
  | entries :: rest => .table (entryValues entries) :: tableValues rest

end

def textValue : Read (List Char) → Read Value
  | some (cs, rest) => some (.text (String.ofList cs), rest)
  | none => none

mutual

/-- A value at the start of a text. The first number counts down the steps of the
descent, the second one the depth of lists and braces. -/
def value : Nat → Nat → List Char → Read Value
  | 0, _, _ => none
  | n + 1, depth, cs =>
    match cs with
    | '"' :: '"' :: '"' :: rest => textValue (multilineText '"' true rest)
    | '"' :: rest => textValue (basic rest)
    | '\'' :: '\'' :: '\'' :: rest => textValue (multilineText '\'' false rest)
    | '\'' :: rest => textValue (literal rest)
    | '[' :: rest =>
      if depth + 1 < depthLimit then
        (items n (depth + 1) rest).map fun p => (.list p.1, p.2)
      else none
    | '{' :: rest =>
      if depth + 1 < depthLimit then
        match skip rest with
        | '}' :: rest => some (.table [], rest)
        | rest =>
          (pairs n (depth + 1) [] rest).map fun p => (.table (entryValues p.1), p.2)
      else none
    | 't' :: 'r' :: 'u' :: 'e' :: rest => some (.scalar, rest)
    | 'f' :: 'a' :: 'l' :: 's' :: 'e' :: rest => some (.scalar, rest)
    | cs =>
      match dateTime cs with
      | .read rest => some (.date, rest)
      | .wrong => none
      | .absent => number cs

def items : Nat → Nat → List Char → Read (List Value)
  | 0, _, _ => none
  | n + 1, depth, cs =>
    match gap (cs.length + 1) cs with
    | ']' :: rest => some ([], rest)
    | cs =>
      match value n depth cs with
      | none => none
      | some (item, rest) =>
        match gap (rest.length + 1) rest with
        | ',' :: rest => (items n depth rest).map fun p => (item :: p.1, p.2)
        | ']' :: rest => some ([item], rest)
        | _ => none

def pairs : Nat → Nat → Entries → List Char → Read Entries
  | 0, _, _, _ => none
  | n + 1, depth, entries, cs =>
    match key cs with
    | some (path, '=' :: rest) =>
      match value n depth (skip rest) with
      | none => none
      | some (v, rest) =>
        match assign entries path v with
        | none => none
        | some entries =>
          match skip rest with
          | ',' :: rest => pairs n depth entries rest
          | '}' :: rest => some (entries, rest)
          | _ => none
    | _ => none

end

/-- The document so far: the tables that are finished, and the one that lines now add to
with the header that opened it. -/
structure Progress where
  finished : Entries := []
  header : List String := []
  /-- Whether the header opened one table of a list. -/
  listed : Bool := false
  current : Entries := []

namespace Progress

def close (p : Progress) : Option Entries :=
  match p.header.getLast? with
  | none => some p.current
  | some name =>
    descend false (fun _ entries =>
      match entries.lookup name with
      | some (.tables items) =>
        if p.listed then some (setEntry name (.tables (p.current :: items)) entries) else none
      | some (.table true false _) =>
        if p.listed then none else some (setEntry name (.table false false p.current) entries)
      | none =>
        some (entries ++
          [(name, if p.listed then .tables [p.current] else .table false false p.current)])
      | some _ => none) false p.header.dropLast p.finished

/-- The entries that a header's table has before its first line: those of the tables
that other headers have put below it. -/
def entriesAt : List String → Entries → Entries
  | [], entries => entries
  | name :: path, entries =>
    match entries.lookup name with
    | some (.table _ _ inner) => entriesAt path inner
    | some (.tables (last :: _)) => entriesAt path last
    | _ => []

def opening (path : List String) (entries : Entries) : Entries :=
  match path.getLast? with
  | none => []
  | some name =>
    match (entriesAt path.dropLast entries).lookup name with
    | some (.table true false inner) => inner
    | _ => []

def openTable (p : Progress) (path : List String) (listed : Bool) : Option Progress :=
  p.close.map fun finished =>
    { finished := finished, header := path, listed := listed
      current := if listed then [] else opening path finished }

def add (p : Progress) (path : List String) (v : Value) : Option Progress :=
  (assign p.current path v).map fun current => { p with current := current }

end Progress

def header (listed : Bool) (p : Progress) (cs : List Char) : Option (Progress × List Char) := do
  let (path, rest) ← key cs
  let rest ← match listed, rest with
    | true, ']' :: ']' :: rest => some rest
    | false, ']' :: rest => some rest
    | _, _ => none
  let rest ← lineEnd rest
  let p ← p.openTable path listed
  return (p, rest)

def entry (p : Progress) (cs : List Char) : Option (Progress × List Char) := do
  let (path, rest) ← key cs
  let rest ← match rest with
    | '=' :: rest => some (skip rest)
    | _ => none
  let (v, rest) ← value (2 * rest.length + 2) 0 rest
  let rest ← lineEnd rest
  let p ← p.add path v
  return (p, rest)

def document : Nat → Progress → List Char → Option Progress
  | 0, _, _ => none
  | n + 1, p, cs =>
    match gap (cs.length + 1) cs with
    | [] => some p
    | '[' :: '[' :: rest => (header true p rest).bind fun (p, rest) => document n p rest
    | '[' :: rest => (header false p rest).bind fun (p, rest) => document n p rest
    | rest => (entry p rest).bind fun (p, rest) => document n p rest

/-- The table that a whole text denotes; a mark of the byte order may come first. -/
def parse (text : String) : Option Value :=
  let cs := match text.toList with
    | '\uFEFF' :: cs => cs
    | cs => cs
  ((document (cs.length + 1) {} cs).bind Progress.close).map fun entries =>
    .table (entryValues entries)

/-- A record's list may be longer than the record, and the entry of a choice's table
holds a list or a table with nothing in it. -/
def reading : Reading where
  longLists := true
  choicePayload := Value.isEmpty

end PocketTerminal.Document.Toml
