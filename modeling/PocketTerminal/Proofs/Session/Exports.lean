import PocketTerminal.Proofs.Session.Aliases
import PocketTerminal.Proofs.Session.Referents
import PocketTerminal.Proofs.Shell.Refusals
import PocketTerminal.Proofs.Shell.Values

/-! # What exported variables stand for

Every name that `export` accepts is read back as a whole where it stands behind a dollar sign. So
a value that was given to `export` in quotes comes back as it was, one word of a later line,
whatever its characters are. -/
namespace PocketTerminal

namespace Shell

variable {n v : String} {lookup : Lookup} {found : List Template} {word : List Piece}

theorem nameChars_of_validName (hname : Memory.validName n) :
    n.toList ≠ [] ∧ ∀ c ∈ n.toList, Text.isNameChar c := by
  unfold Memory.validName at hname
  split at hname
  · cases hname
  · next c cs hchars =>
    obtain ⟨hfirst, hrest⟩ := Bool.and_eq_true_iff.mp hname
    rw [hchars]
    refine ⟨List.cons_ne_nil _ _, List.forall_mem_cons.mpr ⟨?_, List.all_eq_true.mp hrest⟩⟩
    rcases Bool.or_eq_true_iff.mp hfirst with halpha | hunderscore
    · simp [Text.isNameChar, Char.isAlphanum, halpha]
    · exact Bool.or_eq_true_iff.mpr (.inr hunderscore)

theorem notMem_of_validName (hname : Memory.validName n) {c : Char}
    (hc : Text.isNameChar c = false) : c ∉ n.toList := by
  intro hmem
  rw [(nameChars_of_validName hname).2 c hmem] at hc
  cases hc

def quotedVar (name : String) : String := "\"$" ++ name ++ "\""

def bracedVar (name : String) : String := "\"$\x7b" ++ name ++ "\x7d\""

def bareVar (name : String) : String := "$" ++ name

/-- The scan reads the whole name, and no more than the name. -/
theorem finish_dollar_name (hname : Memory.validName n) (inDouble : Bool) {rest : List Char}
    (hrest : rest.takeWhile Text.isNameChar = []) :
    ((n.toList ++ rest).foldl (Scan.step true) ⟨found, word, .dollar inDouble⟩).finish =
      (rest.foldl (Scan.step true)
        ⟨found, .var n :: word, if inDouble then .double else .bare⟩).finish := by
  obtain ⟨hne, hchars⟩ := nameChars_of_validName hname
  have hopen : '{' ∉ n.toList := notMem_of_validName hname rfl
  obtain ⟨c, cs, hn⟩ := List.exists_cons_of_ne_nil hne
  rw [hn] at hchars hopen
  obtain ⟨hc, hcs⟩ := List.forall_mem_cons.mp hchars
  have hbrace : c ≠ '{' := fun h => hopen (h ▸ List.mem_cons_self)
  have hwhole : String.ofList ([c].reverse ++ (cs ++ [])) = n := by
    rw [List.reverse_singleton, List.append_nil, List.singleton_append, ← hn, String.ofList_toList]
  have hdrop : rest.dropWhile Text.isNameChar = rest := by
    conv_rhs => rw [← List.takeWhile_append_dropWhile (p := Text.isNameChar) (l := rest), hrest]
    rfl
  rw [hn, List.cons_append, List.foldl_cons, Scan.step_dollar, if_neg hbrace, if_pos hc,
    Scan.finish_name, List.takeWhile_append_of_pos hcs, List.dropWhile_append_of_pos hcs, hrest,
    hdrop, hwhole]

theorem templates_quotedVar (hname : Memory.validName n) :
    templates true (quotedVar n).toList = .ok [[.quote, .var n]] := by
  have hchars : (quotedVar n).toList = '"' :: '$' :: (n.toList ++ ['"']) := by
    rw [quotedVar, String.toList_append, String.toList_append]
    rfl
  rw [templates, hchars]
  exact finish_dollar_name hname true rfl

theorem templates_bracedVar (hname : Memory.validName n) :
    templates true (bracedVar n).toList = .ok [[.quote, .var n]] := by
  have hchars : (bracedVar n).toList = '"' :: '$' :: '{' :: (n.toList ++ '}' :: ['"']) := by
    rw [bracedVar, String.toList_append, String.toList_append, List.append_assoc]
    rfl
  have hclosed : Text.cutAt '}' (n.toList ++ '}' :: ['"']) = some (n.toList, ['"']) :=
    Text.cutAt_append_cons (notMem_of_validName hname rfl) ['"']
  have hopen : ['"', '$', '{'].foldl (Scan.step true) {} = ⟨[], [.quote], .braced true []⟩ := rfl
  have hsplit : '"' :: '$' :: '{' :: (n.toList ++ '}' :: ['"']) =
      ['"', '$', '{'] ++ (n.toList ++ '}' :: ['"']) := rfl
  rw [templates, hchars, hsplit, List.foldl_append, hopen, Scan.finish_braced, hclosed]
  dsimp only
  rw [List.reverse_nil, List.nil_append, String.ofList_toList]
  rfl

theorem templates_bareVar (hname : Memory.validName n) :
    templates true (bareVar n).toList = .ok [[.var n]] := by
  have hchars : (bareVar n).toList = '$' :: (n.toList ++ []) := by
    rw [bareVar, String.toList_append, List.append_nil]
    rfl
  rw [templates, hchars]
  exact finish_dollar_name hname false rfl

/-- Double quotes make a word of a variable even where its value is empty. -/
theorem expand?_quote_var (hv : lookup n = some v) :
    Template.expand? lookup [.quote, .var n] = some v := by
  simp [Template.expand?, Piece.counts, Piece.value, hv]

theorem expand?_var (hv : lookup n = some v) :
    Template.expand? lookup [.var n] = if v = "" then none else some v := by
  by_cases hempty : v = "" <;> simp [Template.expand?, Piece.counts, Piece.value, hv, hempty]

theorem tokenizeWith_quotedVar (hname : Memory.validName n) (hv : lookup n = some v) :
    tokenizeWith lookup (quotedVar n) = .ok [v] := by
  rw [tokenizeWith, templates_quotedVar hname, Except.map, List.filterMap_cons, expand?_quote_var hv]
  rfl

theorem tokenizeWith_bracedVar (hname : Memory.validName n) (hv : lookup n = some v) :
    tokenizeWith lookup (bracedVar n) = .ok [v] := by
  rw [tokenizeWith, templates_bracedVar hname, Except.map, List.filterMap_cons, expand?_quote_var hv]
  rfl

theorem tokenizeWith_bareVar (hname : Memory.validName n) (hv : lookup n = some v) :
    tokenizeWith lookup (bareVar n) = .ok (if v = "" then [] else [v]) := by
  rw [tokenizeWith, templates_bareVar hname, Except.map, List.filterMap_cons, expand?_var hv]
  by_cases hempty : v = ""
  · rw [if_pos hempty, if_pos hempty]
    rfl
  · rw [if_neg hempty, if_neg hempty]
    rfl

theorem trailing_quotedVar (n : String) : trailing (quotedVar n).toList = 0 := by
  rw [quotedVar, String.toList_append]
  exact trailing_concat_of_ne (by decide) _

theorem trailing_bracedVar (n : String) : trailing (bracedVar n).toList = 0 := by
  have hlast : "\x7d\"".toList = ['}'] ++ ['"'] := rfl
  rw [bracedVar, String.toList_append, hlast, ← List.append_assoc]
  exact trailing_concat_of_ne (by decide) _

theorem trailing_bareVar (hname : Memory.validName n) : trailing (bareVar n).toList = 0 := by
  refine trailing_eq_zero fun hlast => ?_
  obtain ⟨hne, -⟩ := nameChars_of_validName hname
  rw [bareVar, String.toList_append, List.getLast?_append_of_ne_nil _ hne] at hlast
  exact notMem_of_validName hname rfl (List.mem_of_getLast? hlast)

theorem runExport_assignment (hname : Memory.validName n) (v : String) (e : Environment) :
    Memory.exportCommand.run [n ++ "=" ++ v] e =
      (.ok .silent, { e with vars := e.vars.insert n v }) := by
  have hassign : Memory.assign? e.vars (n ++ "=" ++ v) = some (e.vars.insert n v) := by
    rw [Memory.assign?, cutAt_assignment (notMem_of_validName hname rfl)]
    dsimp only
    rw [String.ofList_toList, String.ofList_toList, if_pos hname]
  have hargs : [n ++ "=" ++ v].isEmpty = false := rfl
  simp only [Memory.exportCommand, Memory.runExport, hargs, Memory.assignAll, hassign,
    Bool.false_eq_true, if_false, if_true]

theorem tokenizeWith_quote (lookup : Lookup) (w : String) : tokenizeWith lookup (quote w) = .ok [w] := by
  have hline : quoteLine [w] = quote w := by
    rw [quoteLine, List.map_singleton, String.intercalate_singleton]
  rw [← hline]
  exact (tokenize_quoteLine [w]).2 lookup

end Shell

namespace Session

open Shell

variable {s : Session} {n v : String}

def exported (s : Session) (name value : String) : Session :=
  s.launch ("export " ++ quote (name ++ "=" ++ value))

/-- On every line of a command, whatever stands around it, an argument comes to these words. -/
def Yields (s : Session) (command argument : String) (words : List String) : Prop :=
  ∀ front blanks back before behind,
    tokenizeWith s.lookup front = .ok (command :: before) → trailing front.toList % 2 = 0 →
      blanks ≠ "" → Text.allBlank blanks →
        tokenizeWith s.lookup back = .ok behind → back.toList.head?.all Text.isBlank →
          s.expand (front ++ blanks ++ (argument ++ back)) =
            .ok (command :: before ++ (words ++ behind))

theorem yields_of_tokenizeWith {command argument : String} {words : List String}
    (halias : s.aliases.get? command = none) (hwords : tokenizeWith s.lookup argument = .ok words)
    (hend : trailing argument.toList = 0) : s.Yields command argument words := by
  intro front blanks back before behind hfront heven hne hblanks hback hstart
  have hnil : blanks.toList ≠ [] := fun h => hne (String.toList_inj.mp h)
  refine expand_of_no_alias ?_ halias
  rw [tokenizeWith, String.toList_append, String.toList_append, String.toList_append]
  exact words_between _ hfront heven hnil (List.all_eq_true.mp hblanks) hwords (by rw [hend]) hback
    hstart

theorem expand_export (hexport : s.aliases.get? "export" = none) (argument : String) :
    s.expand ("export " ++ quote argument) = .ok ["export", argument] := by
  have hline : tokenizeWith s.lookup ("export" ++ " " ++ quote argument) = .ok ["export", argument] := by
    rw [tokenizeWith_plain_append (by decide), tokenizeWith_quote]
    rfl
  have hspace : "export " = "export" ++ " " := by decide
  rw [hspace]
  exact expand_of_no_alias hline hexport

theorem runLine_export (hcommand : s.registry.get? "export" = some Memory.exportCommand)
    (hexport : s.aliases.get? "export" = none) (hname : Memory.validName n) (v : String) :
    s.runLine ("export " ++ quote (n ++ "=" ++ v)) =
      { s.remember ("export " ++ quote (n ++ "=" ++ v)) with vars := s.vars.insert n v } := by
  have hblank : Text.allBlank ("export " ++ quote (n ++ "=" ++ v)) = false := by
    rw [Text.allBlank, String.toList_append]
    rfl
  generalize hline : "export " ++ quote (n ++ "=" ++ v) = line at hblank ⊢
  have hremembered : (s.remember line).aliases.get? "export" = none := hexport
  have hwords : (s.remember line).expand line = .ok ["export", n ++ "=" ++ v] := by
    rw [← hline] at hremembered ⊢
    exact expand_export hremembered _
  have hlower : Text.lower "export" = "export" := (Text.lower_small (by decide)).1
  have hdispatch := Registry.dispatch_of_get? (by decide) (by decide) hcommand [n ++ "=" ++ v]
    (s.remember line).environment
  rw [runExport_assignment hname] at hdispatch
  have hanswer : (s.remember line).runWords ["export", n ++ "=" ++ v] =
      ((s.remember line).absorb
        { (s.remember line).environment with vars := s.vars.insert n v }).applyReply .silent := by
    unfold runWords
    dsimp only
    rw [hlower, show (s.remember line).registry = s.registry from rfl, hdispatch]
    rfl
  rw [runLine, hblank, if_neg Bool.false_ne_true]
  dsimp only
  rw [hwords]
  exact hanswer

theorem exists_exported (hcommand : s.registry.get? "export" = some Memory.exportCommand)
    (hexport : s.aliases.get? "export" = none) (hname : Memory.validName n) (v : String) :
    ∃ lines history, s.exported n v =
      { s with vars := s.vars.insert n v, lines := lines, history := history } := by
  rw [exported, launch, runLine_export hcommand hexport hname]
  dsimp only
  split <;> exact ⟨_, _, rfl⟩

/-- A value that `export` was given in quotes comes back as it was: one word where the variable
stands in double quotes, and outside quotes one word too unless the value is empty. All other
variables are as they were. -/
theorem export_comes_back (s : Session) {n v : String}
    (hcommand : s.registry.get? "export" = some Memory.exportCommand)
    (hexport : s.aliases.get? "export" = none) (hecho : s.aliases.get? "echo" = none)
    (hname : Memory.validName n) (hpwd : n ≠ "PWD") :
    (s.exported n v).Yields "echo" (quotedVar n) [v] ∧
      (s.exported n v).Yields "echo" (bracedVar n) [v] ∧
      (s.exported n v).Yields "echo" (bareVar n) (if v = "" then [] else [v]) ∧
      ∀ other, other ≠ n → (s.exported n v).vars.get? other = s.vars.get? other ∧
        (s.exported n v).lookup other = s.lookup other := by
  obtain ⟨lines, history, hexported⟩ := exists_exported hcommand hexport hname v
  have hlookup : ∀ name, (s.exported n v).lookup name =
      if name = "PWD" then some s.files.cwd else if name = n then some v else s.vars.get? name := by
    intro name
    rw [hexported, lookup, Table.get?_insert]
  have hv : (s.exported n v).lookup n = some v := by
    rw [hlookup, if_neg hpwd, if_pos rfl]
  have halias : (s.exported n v).aliases.get? "echo" = none := by
    rw [hexported]
    exact hecho
  refine ⟨yields_of_tokenizeWith halias (tokenizeWith_quotedVar hname hv) (trailing_quotedVar n),
    yields_of_tokenizeWith halias (tokenizeWith_bracedVar hname hv) (trailing_bracedVar n),
    yields_of_tokenizeWith halias (tokenizeWith_bareVar hname hv) (trailing_bareVar hname), ?_⟩
  intro other hother
  constructor
  · rw [hexported, Table.get?_insert, if_neg hother]
  · rw [hlookup, if_neg hother]
    rfl

/-- A value of quotes, blanks and signs, between other words of the line. -/
theorem export_comes_back_signs :
    ((start default).exported "_A1" "it's  \"$PWD\"=").expand "echo -n \"$_A1\" b" =
        .ok ["echo", "-n", "it's  \"$PWD\"=", "b"] ∧
      ((start default).exported "_A1" "").expand "echo a$ $_A1\tb" = .ok ["echo", "a$", "b"] := by
  have hcommand : (start default).registry.get? "export" = some Memory.exportCommand := by
    rw [show (start default).registry = .standard from rfl, Registry.get?_standard]
    rfl
  have hexport : (start default).aliases.get? "export" = none := by decide +kernel
  have hecho : (start default).aliases.get? "echo" = none := by decide +kernel
  obtain ⟨hquoted, -⟩ := export_comes_back (start default) (n := "_A1") (v := "it's  \"$PWD\"=")
    hcommand hexport hecho (by decide) (by decide)
  obtain ⟨-, -, hbare, -⟩ := export_comes_back (start default) (n := "_A1") (v := "")
    hcommand hexport hecho (by decide) (by decide)
  have hfront : ∀ lookup, tokenizeWith lookup "echo -n" = .ok ["echo", "-n"] := fun _ => rfl
  have hback : ∀ lookup, tokenizeWith lookup " b" = .ok ["b"] := fun _ => rfl
  have hfront' : ∀ lookup, tokenizeWith lookup "echo a$" = .ok ["echo", "a$"] := fun _ => rfl
  have hback' : ∀ lookup, tokenizeWith lookup "\tb" = .ok ["b"] := fun _ => rfl
  have hline : "echo -n \"$_A1\" b" = "echo -n" ++ " " ++ (quotedVar "_A1" ++ " b") := by decide
  have hline' : "echo a$ $_A1\tb" = "echo a$" ++ " " ++ (bareVar "_A1" ++ "\tb") := by decide
  rw [hline, hline']
  constructor
  · exact hquoted _ _ _ ["-n"] ["b"] (hfront _) rfl (by decide) rfl (hback _) rfl
  · exact hbare _ _ _ ["a$"] ["b"] (hfront' _) rfl (by decide) rfl (hback' _) rfl

end Session
end PocketTerminal
