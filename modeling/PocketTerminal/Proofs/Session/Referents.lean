import PocketTerminal.Proofs.Session.Outcomes
import PocketTerminal.Proofs.Shell.Quoting
import PocketTerminal.Proofs.Tables

/-! # What a name refers to

The command `which` looks a name up without running it. It agrees with what the name comes to
as a command line, as long as the case of its letters makes no difference to the aliases and
to the command's name, and no command is registered as `exit`. -/
namespace PocketTerminal

namespace Text

def isSmallAscii (c : Char) : Bool := decide (c.toNat < 0x80) && c.toLower == c

theorem isSmallAscii_iff {c : Char} : isSmallAscii c ↔ c.toNat < 0x80 ∧ c.toLower = c := by
  rw [isSmallAscii, Bool.and_eq_true, decide_eq_true_iff, beq_iff_eq]

theorem lowerFrom_small {cs : List Char} (hcs : ∀ c ∈ cs, isSmallAscii c) (before : List Char) :
    lowerFrom before cs = cs := by
  induction cs generalizing before with
  | nil => rfl
  | cons c cs ih =>
    obtain ⟨hc, hrest⟩ := List.forall_mem_cons.mp hcs
    obtain ⟨hascii, hsmall⟩ := isSmallAscii_iff.mp hc
    rw [lowerFrom, ih hrest, lowerChar, if_pos hascii, hsmall, List.singleton_append]

/-- A text of such characters is its own lower case, by either rule. -/
theorem lower_small {w : String} (hw : w.toList.all isSmallAscii) :
    lower w = w ∧ lowerAscii w = w := by
  have hsmall := List.all_eq_true.mp hw
  have hmap : w.toList.map Char.toLower = w.toList.map id :=
    List.map_congr_left fun c hc => (isSmallAscii_iff.mp (hsmall c hc)).2
  constructor
  · rw [lower, lowerFrom_small hsmall, String.ofList_toList]
  · rw [lowerAscii, hmap, List.map_id, String.ofList_toList]

end Text

namespace Shell

inductive Referent where
  | aliased (text : String)
  /-- One of the names that no command has to be registered for. -/
  | builtin
  | command (c : Command)
  | unknown

namespace Referent

def report (name : String) : Referent → Except Fault Reply
  | aliased text => .ok (.text (name ++ ": aliased to '" ++ text ++ "'"))
  | builtin => .ok (.text (name ++ ": shell built-in"))
  | command c => .ok (.text (c.name ++ ": " ++ c.description ++ " (" ++ c.category ++ ")"))
  | unknown => .error (.refused (name ++ ": not found"))

def closing? : Except Fault Reply → Option Char
  | .ok (.text text) => text.toList.getLast?
  | _ => none

@[simp] theorem closing?_aliased (name text : String) :
    closing? ((aliased text).report name) = some '\'' := by
  rw [report, closing?, String.toList_append, List.getLast?_append]
  rfl

@[simp] theorem closing?_builtin (name : String) : closing? (builtin.report name) = some 'n' := by
  rw [report, closing?, String.toList_append, List.getLast?_append]
  rfl

@[simp] theorem closing?_command (name : String) (c : Command) :
    closing? ((command c).report name) = some ')' := by
  rw [report, closing?, String.toList_append, List.getLast?_append]
  rfl

@[simp] theorem closing?_unknown (name : String) : closing? (unknown.report name) = none := rfl

variable {r : Referent} {name : String}

/-- A report of an alias is of this alias, and of nothing else. -/
theorem report_eq_aliased {text : String} :
    r.report name = (aliased text).report name ↔ r = aliased text := by
  refine ⟨fun h => ?_, fun h => by rw [h]⟩
  have hclosing := congrArg closing? h
  cases r with
  | aliased other => simpa [report] using h
  | _ => simp at hclosing

theorem report_eq_builtin : r.report name = builtin.report name ↔ r = builtin := by
  refine ⟨fun h => ?_, fun h => by rw [h]⟩
  have hclosing := congrArg closing? h
  cases r with
  | builtin => rfl
  | _ => simp at hclosing

theorem report_eq_unknown : r.report name = unknown.report name ↔ r = unknown := by
  refine ⟨fun h => ?_, fun h => by rw [h]⟩
  have hclosing := congrArg closing? h
  cases r with
  | unknown => rfl
  | _ => simp at hclosing

end Referent

def Registry.referent (r : Registry) (aliases : Table String) (name : String) : Referent :=
  match aliases.get? name with
  | some text => .aliased text
  | none =>
    if (builtins.lookup name).isSome then .builtin
    else
      match r.get? name with
      | some c => .command c
      | none => .unknown

theorem Registry.referent_eq_aliased {r : Registry} {aliases : Table String} {name text : String} :
    r.referent aliases name = .aliased text ↔ aliases.get? name = some text := by
  unfold referent
  cases aliases.get? name with
  | some other => simp
  | none =>
    dsimp only
    split
    · simp
    · cases r.get? name <;> simp

theorem Registry.isSome_lookup_builtins (name : String) :
    (builtins.lookup name).isSome ↔ name = "exit" ∨ name = "help" ∨ name = "which" := by
  simp only [builtins, Table.lookup_cons, List.lookup_nil]
  by_cases hexit : name = "exit" <;> by_cases hhelp : name = "help" <;>
    by_cases hwhich : name = "which" <;> simp [hexit, hhelp, hwhich]

theorem Registry.dispatch_which (r : Registry) (w : String) (env : Environment) :
    r.dispatch "which" [w] env =
      some ((r.referent env.aliases (Text.lowerAscii w)).report (Text.lowerAscii w), env) := by
  have hwhich : r.which [w] env =
      (r.referent env.aliases (Text.lowerAscii w)).report (Text.lowerAscii w) := by
    unfold which referent
    dsimp only
    cases env.aliases.get? (Text.lowerAscii w) with
    | some text => rfl
    | none =>
      dsimp only
      split
      · rfl
      · cases r.get? (Text.lowerAscii w) <;> rfl
  rw [dispatch, if_neg (by decide), if_pos rfl, hwhich]

end Shell

namespace Session

open Shell

variable {s : Session} {w : String}

/-- The text of the alias that is put in for the first word of a line. -/
def spliced? (s : Session) (line : String) : Option String :=
  match tokenizeWith s.lookup line with
  | .ok (first :: _) => s.aliases.get? first
  | _ => none

def handler (s : Session) (name : String) : Referent :=
  if name = "help" ∨ name = "which" then .builtin
  else
    match s.registry.get? name with
    | some c => .command c
    | none => if name = "exit" then .builtin else .unknown

def answered (s : Session) : Except Fault Reply × Environment → Outcome × Session
  | (.ok reply, env) => (.reply reply, s.absorb env)
  | (.error fault, env) => (.refusal fault.message, s.absorb env)

def handled (s : Session) (name : String) (args : List String) : Referent → Outcome × Session
  | .command c => s.answered (c.run args s.environment)
  | .builtin =>
    if name = "help" then s.answered (s.registry.help args, s.environment)
    else if name = "which" then s.answered (s.registry.which args s.environment, s.environment)
    else (.leave, s)
  | .aliased _ | .unknown => (.refusal (s.say .commandNotFound [("command", name)]), s)

theorem wordsOutcome_cons (s : Session) (first : String) (args : List String) :
    s.wordsOutcome (first :: args) =
      s.handled (Text.lower first) args (s.handler (Text.lower first)) := by
  unfold wordsOutcome handler
  dsimp only
  generalize Text.lower first = name
  by_cases hhelp : name = "help"
  · have hbuiltin : name = "help" ∨ name = "which" := .inl hhelp
    rw [Registry.dispatch, if_pos hhelp, if_pos hbuiltin, handled, if_pos hhelp]
    cases s.registry.help args <;> rfl
  by_cases hwhich : name = "which"
  · have hbuiltin : name = "help" ∨ name = "which" := .inr hwhich
    rw [Registry.dispatch, if_neg hhelp, if_pos hwhich, if_pos hbuiltin, handled, if_neg hhelp,
      if_pos hwhich]
    cases s.registry.which args s.environment <;> rfl
  rw [Registry.dispatch, if_neg hhelp, if_neg hwhich, if_neg (not_or.mpr ⟨hhelp, hwhich⟩)]
  cases s.registry.get? name with
  | some c =>
    dsimp only [Option.map_some, handled]
    obtain ⟨_ | _, env⟩ := c.run args s.environment <;> rfl
  | none =>
    dsimp only [Option.map_none]
    by_cases hexit : name = "exit"
    · rw [if_pos hexit, if_pos hexit, handled, if_neg hhelp, if_neg hwhich]
    · rw [if_neg hexit, if_neg hexit, handled]

theorem spliced?_plain (hw : isPlain w) : s.spliced? w = s.aliases.get? w := by
  rw [spliced?, tokenizeWith_plain hw]

/-- The words of a plain word's line: its alias's, if it has one. -/
theorem expand_plain (hw : isPlain w) :
    s.expand w =
      match s.spliced? w with
      | some text => tokenizeWith s.lookup text
      | none => .ok [w] := by
  rw [spliced?_plain hw, expand, tokenizeWith_plain hw]
  dsimp only
  cases s.aliases.get? w with
  | none => rfl
  | some text =>
    dsimp only
    cases tokenizeWith s.lookup text with
    | error fault => rfl
    | ok words => rw [Except.map, List.append_nil]

theorem allBlank_plain (hw : isPlain w) : Text.allBlank w = false := by
  obtain ⟨hne, hchars⟩ := isPlain_iff.mp hw
  obtain ⟨c, hc⟩ := List.exists_mem_of_ne_nil _ hne
  obtain ⟨-, -, -, -, hblank⟩ := isPlainChar_iff.mp (hchars c hc)
  exact List.all_eq_false.mpr ⟨c, hc, ne_true_of_eq_false hblank⟩

theorem outcome_plain (hw : isPlain w) (halias : s.spliced? w = none) :
    s.outcome w = (s.remember w).handled (Text.lower w) [] (s.handler (Text.lower w)) := by
  have hwords : (s.remember w).expand w = .ok [w] := by
    rw [expand_plain hw, show (s.remember w).spliced? w = none from halias]
  rw [outcome, allBlank_plain hw, if_neg Bool.false_ne_true]
  dsimp only
  rw [hwords]
  exact wordsOutcome_cons (s.remember w) w []

theorem referent_eq_handler {name : String} (haliases : s.aliases.get? name = none)
    (hexit : name = "exit" → s.registry.get? "exit" = none) :
    s.registry.referent s.aliases name = s.handler name := by
  have hbuiltins := Registry.isSome_lookup_builtins name
  rw [Registry.referent, haliases, handler]
  dsimp only
  by_cases hregistry : name = "help" ∨ name = "which"
  · rw [if_pos (hbuiltins.mpr (.inr hregistry)), if_pos hregistry]
  · rw [if_neg hregistry]
    by_cases hname : name = "exit"
    · rw [if_pos (hbuiltins.mpr (.inl hname)), hname, hexit hname]
      rfl
    · rw [if_neg (fun h => (hbuiltins.mp h).elim hname hregistry), if_neg hname]

/-- For a plain word, `which` reports an alias exactly when the word's line is run with the
alias in its place, and then this alias. Otherwise it reports that the word is unknown exactly
when nobody carries out the line, that it is a built-in exactly when the line is carried out
as one, and else the command that the line runs. The aliases must not tell the word from its
lower case, the two ways to lower case must agree on it, and no command may have the name
`exit`, which `which` takes for the built-in. -/
theorem which_agrees (hw : isPlain w)
    (haliases : s.aliases.get? (Text.lowerAscii w) = s.aliases.get? w)
    (hlower : Text.lower w = Text.lowerAscii w)
    (hexit : Text.lower w = "exit" → s.registry.get? "exit" = none) :
    ∃ answer, s.registry.dispatch "which" [w] s.environment = some (answer, s.environment) ∧
      (∀ text, answer = (Referent.aliased text).report (Text.lower w) ↔ s.spliced? w = some text) ∧
      (∀ text, s.spliced? w = some text → s.expand w = tokenizeWith s.lookup text) ∧
      (s.spliced? w = none →
        s.outcome w = (s.remember w).handled (Text.lower w) [] (s.handler (Text.lower w)) ∧
          (answer = Referent.unknown.report (Text.lower w) ↔ s.handler (Text.lower w) = .unknown) ∧
          (answer = Referent.builtin.report (Text.lower w) ↔ s.handler (Text.lower w) = .builtin) ∧
          ∀ c, s.handler (Text.lower w) = .command c →
            answer = (Referent.command c).report (Text.lower w)) := by
  rw [← hlower] at haliases
  have hspliced : s.spliced? w = s.aliases.get? (Text.lower w) := by
    rw [spliced?_plain hw, haliases]
  have hwhich := Registry.dispatch_which s.registry w s.environment
  rw [← hlower] at hwhich
  refine ⟨_, hwhich, fun text => ?_, fun text htext => ?_, fun hnone => ?_⟩
  · rw [hspliced]
    exact Referent.report_eq_aliased.trans Registry.referent_eq_aliased
  · rw [expand_plain hw, htext]
  · rw [hspliced] at hnone
    have hhandler : s.registry.referent s.environment.aliases (Text.lower w) =
        s.handler (Text.lower w) := referent_eq_handler hnone hexit
    rw [hhandler]
    refine ⟨outcome_plain hw (hspliced.trans hnone), Referent.report_eq_unknown,
      Referent.report_eq_builtin, fun c hc => ?_⟩
    rw [hc]

/-- The alias that every session starts with. -/
theorem which_agrees_ll :
    (reach default default []).registry.dispatch "which" ["ll"] (reach default default []).environment =
      some (.ok (.text "ll: aliased to 'ls -al'"), (reach default default []).environment) := by
  obtain ⟨hlower, hascii⟩ := Text.lower_small (w := "ll") (by decide)
  have hexit : Text.lower "ll" = "exit" → (reach default default []).registry.get? "exit" = none := by
    rw [hlower]
    intro h
    simp at h
  obtain ⟨answer, hwhich, haliased, -⟩ := which_agrees (s := reach default default []) (w := "ll")
    (by decide) (by rw [hascii]) (hlower.trans hascii.symm) hexit
  rw [hwhich, (haliased "ls -al").mpr (by decide +kernel), hlower]
  rfl

/-- In capital letters the alias is reported all the same, but the line is refused. -/
theorem which_disagrees :
    (reach default default []).registry.dispatch "which" ["LL"] (reach default default []).environment =
        some (.ok (.text "ll: aliased to 'ls -al'"), (reach default default []).environment) ∧
      (reach default default []).spliced? "LL" = none ∧
      ((reach default default []).outcome "LL").1 = .refusal "ll: command not found" :=
  ⟨rfl, by decide +kernel, rfl⟩

end Session
end PocketTerminal
