import PocketTerminal.Shell.Words
import PocketTerminal.Proofs.Text.Pieces

/-! # Quoting

Any list of words can be written as a command line: each word in single quotes, a single quote
of its own escaped between two quoted parts. The scan finds the words again, whatever values
the variables have. -/
namespace PocketTerminal.Shell

/-- A character inside single quotes. A single quote closes them, stands escaped, and opens
them again. -/
def quoteChar (c : Char) : List Char :=
  if c = '\'' then ['\'', '\\', '\'', '\''] else [c]

def quoteChars (cs : List Char) : List Char := '\'' :: (cs.flatMap quoteChar ++ ['\''])

def quote (word : String) : String := String.ofList (quoteChars word.toList)

def quoteLine (words : List String) : String := String.intercalate " " (words.map quote)

def quotePieces (c : Char) : List Piece :=
  if c = '\'' then [.char c, .quote] else [.char c]

def quoteTemplate (cs : List Char) : Template := .quote :: cs.flatMap quotePieces

variable {cs : List Char} {expanding : Bool} {found : List Template} {word : List Piece}

theorem value_quotePieces (lookup : Lookup) (c : Char) :
    (quotePieces c).flatMap (Piece.value lookup) = [c] := by
  unfold quotePieces
  split
  · rfl
  · rfl

/-- No piece of it is a variable, and the quote that opens it makes even an empty word count. -/
theorem expand?_quoteTemplate (lookup : Lookup) (cs : List Char) :
    (quoteTemplate cs).expand? lookup = some (String.ofList cs) := by
  have hcounts : (quoteTemplate cs).any (Piece.counts lookup) = true := rfl
  have hvalue : (quoteTemplate cs).flatMap (Piece.value lookup) = cs := by
    rw [quoteTemplate, List.flatMap_cons, List.flatMap_assoc]
    simp only [value_quotePieces, Piece.value, List.nil_append, List.flatMap_singleton']
  rw [Template.expand?, if_pos hcounts, hvalue]

theorem foldl_step_quoteChar (c : Char) :
    (quoteChar c).foldl (Scan.step expanding) ⟨found, word, .single⟩ =
      ⟨found, (quotePieces c).reverse ++ word, .single⟩ := by
  unfold quoteChar quotePieces
  by_cases hc : c = '\''
  · subst hc
    rfl
  · rw [if_neg hc, if_neg hc, List.foldl_cons, List.foldl_nil, Scan.step]
    exact if_neg hc

theorem foldl_step_flatMap_quoteChar (cs : List Char) (word : List Piece) :
    (cs.flatMap quoteChar).foldl (Scan.step expanding) ⟨found, word, .single⟩ =
      ⟨found, (cs.flatMap quotePieces).reverse ++ word, .single⟩ := by
  induction cs generalizing word with
  | nil => rfl
  | cons c cs ih =>
    rw [List.flatMap_cons, List.foldl_append, foldl_step_quoteChar, ih, List.flatMap_cons,
      List.reverse_append, List.append_assoc]

theorem foldl_step_quoteChars (cs : List Char) :
    (quoteChars cs).foldl (Scan.step expanding) ⟨found, [], .bare⟩ =
      ⟨found, (quoteTemplate cs).reverse, .bare⟩ := by
  have hopen : Scan.step expanding ⟨found, [], .bare⟩ '\'' = ⟨found, [.quote], .single⟩ := rfl
  rw [quoteChars, List.foldl_cons, hopen, List.foldl_append, foldl_step_flatMap_quoteChar,
    quoteTemplate, List.reverse_cons]
  rfl

theorem endWord_quoteTemplate (place : Place) :
    (Scan.mk found (quoteTemplate cs).reverse place).endWord = ⟨quoteTemplate cs :: found, [], place⟩ := by
  have hne : (quoteTemplate cs).reverse.isEmpty = false := by
    rw [List.isEmpty_reverse]
    rfl
  simp only [Scan.endWord, hne, Bool.false_eq_true, ↓reduceIte, List.reverse_reverse]

theorem step_space :
    Scan.step expanding ⟨found, (quoteTemplate cs).reverse, .bare⟩ ' ' =
      ⟨quoteTemplate cs :: found, [], .bare⟩ := by
  have hend : Scan.step expanding ⟨found, (quoteTemplate cs).reverse, .bare⟩ ' ' =
      (Scan.endWord ⟨found, (quoteTemplate cs).reverse, .bare⟩).goto .bare := rfl
  rw [hend, endWord_quoteTemplate]
  rfl

/-- The word read last is ended by the next space or by the end of the line. -/
theorem finish_foldl_step (found : List Template) (cs : List Char) (rest : List (List Char)) :
    ((rest.flatMap fun cs => ' ' :: quoteChars cs).foldl (Scan.step expanding)
      ⟨found, (quoteTemplate cs).reverse, .bare⟩).finish =
        .ok (found.reverse ++ (cs :: rest).map quoteTemplate) := by
  induction rest generalizing found cs with
  | nil =>
    rw [List.flatMap_nil, List.foldl_nil, Scan.finish, endWord_quoteTemplate, List.reverse_cons]
    rfl
  | cons next rest ih =>
    rw [List.flatMap_cons, List.cons_append, List.foldl_cons, step_space, List.foldl_append,
      foldl_step_quoteChars, ih, List.reverse_cons, List.append_assoc]
    rfl

theorem toList_quoteLine (words : List String) :
    (quoteLine words).toList = [' '].intercalate ((words.map String.toList).map quoteChars) := by
  have hquote : String.toList ∘ quote = quoteChars ∘ String.toList :=
    funext fun _ => String.toList_ofList
  rw [quoteLine, String.toList_intercalate, List.map_map, List.map_map, hquote]
  rfl

theorem templates_quoteLine (words : List String) :
    templates expanding (quoteLine words).toList = .ok ((words.map String.toList).map quoteTemplate) := by
  rw [toList_quoteLine, templates]
  cases words with
  | nil => rfl
  | cons w words =>
    rw [List.map_cons, List.map_cons, Text.intercalate_cons, List.foldl_append, foldl_step_quoteChars,
      List.flatMap_map, finish_foldl_step]
    rfl

theorem filterMap_expand?_quoteTemplate (lookup : Lookup) (words : List String) :
    ((words.map String.toList).map quoteTemplate).filterMap (Template.expand? lookup) = words := by
  simp [List.filterMap_map, expand?_quoteTemplate]

/-- A quoted line has the words it was made of, with dollar signs kept and under every lookup. -/
theorem tokenize_quoteLine (words : List String) :
    tokenize (quoteLine words) = .ok words ∧
      ∀ lookup, tokenizeWith lookup (quoteLine words) = .ok words := by
  constructor
  · rw [tokenize, templates_quoteLine, Except.map, filterMap_expand?_quoteTemplate]
  · intro lookup
    rw [tokenizeWith, templates_quoteLine, Except.map, filterMap_expand?_quoteTemplate]

example : quoteLine ["it's", "", "$a b"] = "'it'\\''s' '' '$a b'" ∧
    tokenize "'it'\\''s' '' '$a b'" = .ok ["it's", "", "$a b"] := ⟨rfl, rfl⟩

def isPlainChar (c : Char) : Bool :=
  !(c == '\'' || c == '"' || c == '\\' || c == '$' || Text.isBlank c)

def isPlain (w : String) : Bool := !w.toList.isEmpty && w.toList.all isPlainChar

theorem isPlainChar_iff {c : Char} :
    isPlainChar c ↔ c ≠ '\'' ∧ c ≠ '"' ∧ c ≠ '\\' ∧ c ≠ '$' ∧ Text.isBlank c = false := by
  simp only [isPlainChar, Bool.not_eq_true', Bool.or_eq_false_iff, beq_eq_false_iff_ne, and_assoc]

theorem isPlain_iff {w : String} :
    isPlain w ↔ w.toList ≠ [] ∧ ∀ c ∈ w.toList, isPlainChar c := by
  simp only [isPlain, Bool.and_eq_true, Bool.not_eq_true', List.isEmpty_eq_false_iff,
    List.all_eq_true]

theorem step_plainChar {c : Char} (hc : isPlainChar c) (found : List Template) (word : List Piece) :
    Scan.step true ⟨found, word, .bare⟩ c = ⟨found, .char c :: word, .bare⟩ := by
  obtain ⟨hsingle, hdouble, hescape, hdollar, hblank⟩ := isPlainChar_iff.mp hc
  simp [Scan.step, Scan.bareStep, Scan.push, Scan.goto, hsingle, hdouble, hescape, hdollar, hblank]

theorem foldl_step_plain {cs : List Char} (hcs : ∀ c ∈ cs, isPlainChar c) (word : List Piece) :
    cs.foldl (Scan.step true) ⟨found, word, .bare⟩ =
      ⟨found, (cs.map Piece.char).reverse ++ word, .bare⟩ := by
  induction cs generalizing word with
  | nil => rfl
  | cons c cs ih =>
    obtain ⟨hc, hcs⟩ := List.forall_mem_cons.mp hcs
    rw [List.foldl_cons, step_plainChar hc, ih hcs, List.map_cons, List.reverse_cons,
      List.append_assoc]
    rfl

theorem expand?_map_char (lookup : Lookup) {cs : List Char} (hne : cs ≠ []) :
    Template.expand? lookup (cs.map Piece.char) = some (String.ofList cs) := by
  have hcounts : (cs.map Piece.char).any (Piece.counts lookup) = true := by
    cases cs with
    | nil => exact absurd rfl hne
    | cons c cs => rfl
  have hvalue : (cs.map Piece.char).flatMap (Piece.value lookup) = cs := by
    simp only [List.flatMap_map, Piece.value, List.flatMap_singleton']
  rw [Template.expand?, if_pos hcounts, hvalue]

/-- A line of one plain word has this word and no other. -/
theorem tokenizeWith_plain {w : String} (hw : isPlain w) (lookup : Lookup) :
    tokenizeWith lookup w = .ok [w] := by
  obtain ⟨hne, hchars⟩ := isPlain_iff.mp hw
  have htemplates : templates true w.toList = .ok [w.toList.map Piece.char] := by
    have hword : (w.toList.map Piece.char).reverse.isEmpty = false := by
      simpa using hne
    rw [templates, foldl_step_plain hchars, List.append_nil]
    simp only [Scan.finish, Scan.endWord, hword, Bool.false_eq_true, ↓reduceIte,
      List.reverse_reverse, List.reverse_singleton]
  rw [tokenizeWith, htemplates, Except.map, List.filterMap_cons, expand?_map_char lookup hne,
    String.ofList_toList, List.filterMap_nil]

end PocketTerminal.Shell
