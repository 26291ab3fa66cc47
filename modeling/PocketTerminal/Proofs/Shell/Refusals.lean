import PocketTerminal.Proofs.Files.Refusals
import PocketTerminal.Proofs.Shell.Histories

/-! # What a refused command leaves

The commands of the shell refuse before their first change. Those with many targets go on
behind one that fails, and do not refuse at all. The exception is `export`, which refuses at
the first argument that is no assignment and has carried out those before it. -/
namespace PocketTerminal.Shell

variable {args : List String} {env : Environment} {fault : Fault}

/-- A command that leaves everything as it was where it refuses. -/
def Command.Atomic (c : Command) : Prop :=
  ∀ args env fault, env.files.Settled → (c.run args env).1 = .error fault → (c.run args env).2 = env

theorem atomic_of_reading {c : Command} {answer : List String → Environment → Except Fault Reply}
    (h : c.run = reading answer) : c.Atomic := by
  intro args env fault _ _
  rw [h, reading]

theorem Arrange.onTargets_refused {name : String}
    {change : Messages → Files.Store → String → Option String × Files.Store}
    (h : (onTargets name change args env).1 = .error fault) : (onTargets name change args env).2 = env := by
  unfold onTargets at h ⊢
  split
  · rfl
  · next hsome =>
    rw [if_neg hsome] at h
    cases h

theorem Arrange.transfer_refused {usage : String} {failure : Message}
    {change : Files.Store → String → String → Bool × Files.Store}
    (hchange : ∀ source destination, (change env.files source destination).1 = false →
      (change env.files source destination).2 = env.files)
    (h : (transfer usage failure change args env).1 = .error fault) :
    (transfer usage failure change args env).2 = env := by
  unfold transfer at h ⊢
  split
  · next source destination =>
    dsimp only at h
    split
    · rfl
    · next hthere =>
      rw [if_neg hthere] at h
      split
      · next files hdone =>
        simp only [hdone] at h
        cases h
      · next files hdone =>
        have hkept := hchange source destination (by rw [hdone])
        rw [hdone] at hkept
        rw [show files = env.files from hkept]
  · rfl

theorem Browse.runCd_refused (h : (runCd args env).1 = .error fault) : (runCd args env).2 = env := by
  unfold runCd at h ⊢
  dsimp only at h ⊢
  split
  · next files hdone =>
    simp only [hdone] at h
    cases h
  · next files hdone =>
    have hkept : files = env.files := by
      simpa only [hdone] using Files.Store.changeDir_refused (congrArg Prod.fst hdone)
    subst hkept
    split <;> rfl

theorem Arrange.atomic :
    mkdir.Atomic ∧ touch.Atomic ∧ rm.Atomic ∧ rmdir.Atomic ∧ mv.Atomic ∧ cp.Atomic := by
  refine ⟨?_, ?_, ?_, ?_, ?_, ?_⟩ <;> intro args env fault hfiles h
  · simp only [mkdir] at h ⊢
    exact onTargets_refused h
  · simp only [touch] at h ⊢
    exact onTargets_refused h
  · simp only [rm] at h ⊢
    exact onTargets_refused h
  · simp only [rmdir] at h ⊢
    exact onTargets_refused h
  · simp only [mv] at h ⊢
    exact transfer_refused (fun _ _ => hfiles.move_refused) h
  · simp only [cp] at h ⊢
    exact transfer_refused (fun _ _ => hfiles.copy_refused) h

theorem Browse.cd_atomic : cd.Atomic := by
  intro args env fault _ h
  simp only [cd] at h ⊢
  exact runCd_refused h

namespace Memory

theorem runHistory_refused (h : (runHistory args env).1 = .error fault) :
    (runHistory args env).2 = env := by
  unfold runHistory at h ⊢
  split
  · split <;> rfl
  · cases h
  · rfl

theorem runUnset_refused (h : (runUnset args env).1 = .error fault) : (runUnset args env).2 = env := by
  unfold runUnset at h ⊢
  split
  · rfl
  · next hsome =>
    rw [if_neg hsome] at h
    cases h

theorem runAlias_refused (h : (runAlias args env).1 = .error fault) : (runAlias args env).2 = env := by
  unfold runAlias at h ⊢
  split
  · split <;> rfl
  · dsimp only at h
    split
    · next name value hcut =>
      simp only [hcut] at h
      dsimp only at h ⊢
      split
      · rfl
      · next hname =>
        rw [if_neg hname] at h
        cases h
    · split <;> rfl

theorem runUnalias_refused (h : (runUnalias args env).1 = .error fault) :
    (runUnalias args env).2 = env := by
  unfold runUnalias at h ⊢
  split
  · rfl
  · next hsome =>
    rw [if_neg hsome] at h
    cases h

theorem atomic : history.Atomic ∧ unset.Atomic ∧ aliasCommand.Atomic ∧ unalias.Atomic := by
  refine ⟨?_, ?_, ?_, ?_⟩ <;> intro args env fault _ h
  · simp only [history] at h ⊢
    exact runHistory_refused h
  · simp only [unset] at h ⊢
    exact runUnset_refused h
  · simp only [aliasCommand] at h ⊢
    exact runAlias_refused h
  · simp only [unalias] at h ⊢
    exact runUnalias_refused h

end Memory

theorem atomic_of_mem_builtinCommands :
    ∀ c ∈ builtinCommands, c = Memory.exportCommand ∨ c.Atomic := by
  have reads {c : Command} {answer} (h : c.run = reading answer) : c = Memory.exportCommand ∨ c.Atomic :=
    .inr (atomic_of_reading h)
  unfold builtinCommands
  rw [List.forall_mem_append]
  constructor
  · simp only [List.forall_mem_cons]
    obtain ⟨mkdir, touch, rm, rmdir, mv, cp⟩ := Arrange.atomic
    obtain ⟨history, unset, aliases, unalias⟩ := Memory.atomic
    exact ⟨reads rfl, .inr Browse.cd_atomic, reads rfl, reads rfl, reads rfl,
      .inr mkdir, .inr touch, .inr rm, .inr rmdir, .inr mv, .inr cp,
      reads rfl, reads rfl, reads rfl, reads rfl, reads rfl, reads rfl,
      reads rfl, reads rfl, .inr history, reads rfl, .inl trivial, .inr unset, .inr aliases, .inr unalias,
      reads rfl, reads rfl, reads rfl, List.forall_mem_nil _⟩
  · intro c hc
    obtain ⟨kind, -, rfl⟩ := List.mem_map.mp hc
    exact reads rfl

namespace Memory

def assignedName (arg : String) : String :=
  match Text.cutAt '=' arg.toList with
  | some (name, _) => String.ofList name
  | none => arg

theorem assign?_eq_none_iff {vars : Table String} {arg : String} :
    assign? vars arg = none ↔ validName (assignedName arg) = false := by
  unfold assign? assignedName
  cases Text.cutAt '=' arg.toList with
  | none => simp
  | some cut => simp

/-- The assignments before the first argument with an invalid name are carried out. -/
theorem assignAll_cases (vars : Table String) (args : List String) :
    (assignAll vars args).1 = true ∨
      ∃ done bad rest, args = done ++ bad :: rest ∧ validName (assignedName bad) = false ∧
        assignAll vars done = (true, (assignAll vars args).2) := by
  induction args generalizing vars with
  | nil => exact .inl rfl
  | cons arg rest ih =>
    unfold assignAll
    cases hassign : assign? vars arg with
    | none => exact .inr ⟨[], arg, rest, rfl, assign?_eq_none_iff.mp hassign, rfl⟩
    | some next =>
      rcases ih next with hall | ⟨done, bad, tail, rfl, hbad, hdone⟩
      · exact .inl hall
      · refine .inr ⟨arg :: done, bad, tail, rfl, hbad, ?_⟩
        simp only [hassign]
        exact hdone

/-- Where it refuses it leaves what the arguments before the first bad one leave alone. -/
theorem runExport_refused (h : (runExport args env).1 = .error fault) :
    (runExport args env).2 = env ∨
      ∃ done bad rest, args = done ++ bad :: rest ∧ done ≠ [] ∧
        validName (assignedName bad) = false ∧
        runExport done env = (.ok .silent, (runExport args env).2) := by
  unfold runExport at h
  split at h
  · cases h
  · next hsome =>
    have hleft : (runExport args env).2 = { env with vars := (assignAll env.vars args).2 } := by
      rw [runExport, if_neg hsome]
    rw [hleft]
    rcases assignAll_cases env.vars args with hall | ⟨done, bad, rest, hargs, hbad, hdone⟩
    · simp only [hall, if_true] at h
      cases h
    · cases done with
      | nil =>
        rw [← (Prod.mk.inj hdone).2]
        exact .inl rfl
      | cons first done =>
        refine .inr ⟨first :: done, bad, rest, hargs, List.cons_ne_nil first done, hbad, ?_⟩
        simp only [runExport, hdone]
        rfl

end Memory

namespace Registry

variable {r : Registry} {name : String} {env' : Environment}

theorem dispatch_of_get? {c : Command} (hhelp : name ≠ "help") (hwhich : name ≠ "which")
    (hc : r.get? name = some c) (args : List String) (env : Environment) :
    r.dispatch name args env = some (c.run args env) := by
  rw [dispatch, if_neg hhelp, if_neg hwhich, hc, Option.map_some]

/-- The registry's own answers change nothing, and all others are a command's. -/
theorem dispatch_cases {answer : Except Fault Reply × Environment}
    (hd : r.dispatch name args env = some answer) :
    answer.2 = env ∨
      name ≠ "help" ∧ name ≠ "which" ∧ ∃ c, r.get? name = some c ∧ c.run args env = answer := by
  unfold dispatch at hd
  split at hd
  · rw [← Option.some.inj hd]
    exact .inl rfl
  · next hhelp =>
    split at hd
    · rw [← Option.some.inj hd]
      exact .inl rfl
    · next hwhich => exact .inr ⟨hhelp, hwhich, Option.map_eq_some_iff.mp hd⟩

/-- The command registered last under a name is the one that is found. -/
theorem get?_foldl_register (commands : List Command) (r : Registry) (name : String) :
    (commands.foldl register r).get? name =
      (commands.reverse.find? (·.name == name)).or (r.get? name) := by
  induction commands generalizing r with
  | nil => rfl
  | cons c rest ih =>
    rw [List.foldl_cons, ih, List.reverse_cons, List.find?_append, get?_register, Option.or_assoc]
    congr 1
    by_cases h : name = c.name
    · simp [h]
    · simp [h, Ne.symm h]

theorem get?_standard (name : String) :
    standard.get? name = builtinCommands.reverse.find? (·.name == name) := by
  rw [standard, get?_foldl_register]
  exact Option.or_none

theorem mem_builtinCommands_of_standard {c : Command} (h : standard.get? name = some c) :
    c ∈ builtinCommands := by
  rw [get?_standard] at h
  exact List.mem_reverse.mp (List.mem_of_find?_eq_some h)

/-- A command of the shell that refuses leaves the files, the variables, the aliases and the
history as they were, unless it is `export`. That leaves what it leaves when it is given the
arguments before the first bad one only, and does not refuse. -/
theorem dispatch_refused (origin : Files.Origin) (changes : List Files.Change)
    (hbuiltin : ∀ c, r.get? name = some c → c ∈ builtinCommands)
    (hfiles : env.files = Files.Store.run origin changes)
    (hd : r.dispatch name args env = some (.error fault, env')) :
    env' = env ∨ r.get? name = some Memory.exportCommand ∧
      ∃ done bad rest, args = done ++ bad :: rest ∧ done ≠ [] ∧
        Memory.validName (Memory.assignedName bad) = false ∧
        r.dispatch name done env = some (.ok .silent, env') := by
  have hsettled : env.files.Settled :=
    hfiles ▸ (Files.Store.settled_origin origin).foldl_perform changes
  rcases dispatch_cases hd with hkept | ⟨hhelp, hwhich, c, hc, hrun⟩
  · exact .inl hkept
  · have herror : (c.run args env).1 = .error fault := by rw [hrun]
    have hleft : (c.run args env).2 = env' := by rw [hrun]
    rcases atomic_of_mem_builtinCommands c (hbuiltin c hc) with rfl | hatomic
    · simp only [Memory.exportCommand] at herror hleft
      rcases Memory.runExport_refused herror with hkept | ⟨done, bad, rest, hargs, hne, hbad, hdone⟩
      · exact .inl (hleft ▸ hkept)
      · refine .inr ⟨hc, done, bad, rest, hargs, hne, hbad, ?_⟩
        rw [dispatch_of_get? hhelp hwhich hc, ← hleft]
        exact congrArg some hdone
    · exact .inl (hleft ▸ hatomic args env fault hsettled herror)

def freshEnvironment (files : Files.Store) : Environment where
  files := files
  vars := .empty
  aliases := .empty
  history := []
  messages := {}

theorem freshEnvironment_files (files : Files.Store) : (freshEnvironment files).files = files := rfl

def fileAndDirectory : Files.Store :=
  Files.Store.run (.empty "/home") [.createFile "a" "text", .createDir "b/c" true]

/-- A directory is not moved onto a file. -/
theorem dispatch_refused_mv :
    standard.dispatch "mv" ["b/c", "a"] (freshEnvironment fileAndDirectory) =
        some (.error (.refused "cannot move b/c to a"), freshEnvironment fileAndDirectory) ∧
      (freshEnvironment fileAndDirectory = freshEnvironment fileAndDirectory ∨
        standard.get? "mv" = some Memory.exportCommand ∧
          ∃ done bad rest, ["b/c", "a"] = done ++ bad :: rest ∧ done ≠ [] ∧
            Memory.validName (Memory.assignedName bad) = false ∧
            standard.dispatch "mv" done (freshEnvironment fileAndDirectory) =
              some (.ok .silent, freshEnvironment fileAndDirectory)) := by
  have hthere : (fileAndDirectory.get? "b/c").isNone = false := by decide +kernel
  have hmove : fileAndDirectory.move "b/c" "a" = (false, fileAndDirectory) := by decide +kernel
  have hd : standard.dispatch "mv" ["b/c", "a"] (freshEnvironment fileAndDirectory) =
      some (.error (.refused "cannot move b/c to a"), freshEnvironment fileAndDirectory) := by
    rw [dispatch_of_get? (by decide) (by decide) (by rw [get?_standard]; rfl) (c := Arrange.mv)]
    simp only [Arrange.mv, Arrange.transfer, freshEnvironment, hthere, hmove]
    rfl
  exact ⟨hd, dispatch_refused (.empty "/home") [.createFile "a" "text", .createDir "b/c" true]
    (fun _ => mem_builtinCommands_of_standard) rfl hd⟩

/-- A refused `export` has set the variable before the argument that is none. -/
theorem export_refused_half_done :
    standard.dispatch "export" ["A=1", "2bad"] (freshEnvironment default) =
        some (.error (.refused "usage: export NAME=value..."),
          { freshEnvironment default with vars := Table.empty.insert "A" "1" }) ∧
      (freshEnvironment default).vars ≠ Table.empty.insert "A" "1" := by
  constructor
  · rw [dispatch_of_get? (by decide) (by decide) (by rw [get?_standard]; rfl) (c := Memory.exportCommand)]
    rfl
  · intro he
    have hget : (freshEnvironment default).vars.get? "A" = some "1" := by
      rw [he]
      rfl
    cases hget

end Registry
end PocketTerminal.Shell
