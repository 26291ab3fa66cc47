import PocketTerminal.Proofs.Tables
import PocketTerminal.Shell.Builtins

/-! # What commands leave of the history

The commands of the shell leave the history as it is, but for the one that empties it. -/
namespace PocketTerminal.Shell

def Command.KeepsWithin (n : Nat) (c : Command) : Prop :=
  ∀ args env, env.history.length ≤ n → (c.run args env).2.history.length ≤ n

theorem Arrange.onTargets_history (name : String)
    (change : Messages → Files.Store → String → Option String × Files.Store) (targets : List String)
    (env : Environment) : (onTargets name change targets env).2.history = env.history := by
  unfold onTargets
  split <;> rfl

theorem Arrange.transfer_history (usage : String) (failure : Message)
    (change : Files.Store → String → String → Bool × Files.Store) (args : List String)
    (env : Environment) : (transfer usage failure change args env).2.history = env.history := by
  unfold transfer
  split
  · split
    · rfl
    · split <;> rfl
  · rfl

theorem Browse.runCd_history (args : List String) (env : Environment) :
    (runCd args env).2.history = env.history := by
  unfold runCd
  dsimp only
  split
  · rfl
  · split <;> rfl

theorem Memory.runExport_history (args : List String) (e : Environment) :
    (runExport args e).2.history = e.history := by
  unfold runExport
  split <;> rfl

theorem Memory.runUnset_history (args : List String) (e : Environment) :
    (runUnset args e).2.history = e.history := by
  unfold runUnset
  split <;> rfl

theorem Memory.runAlias_history (args : List String) (e : Environment) :
    (runAlias args e).2.history = e.history := by
  unfold runAlias
  split
  · split <;> rfl
  · split
    · dsimp only
      split <;> rfl
    · split <;> rfl

theorem Memory.runUnalias_history (args : List String) (e : Environment) :
    (runUnalias args e).2.history = e.history := by
  unfold runUnalias
  split <;> rfl

theorem Memory.runHistory_history (args : List String) (e : Environment) :
    (runHistory args e).2.history = e.history ∨ (runHistory args e).2.history = [] := by
  unfold runHistory
  split
  · split <;> exact .inl rfl
  · exact .inr rfl
  · exact .inl rfl

/-- A command that leaves the history as it is, or empties it. -/
def Command.SparesHistory (c : Command) : Prop :=
  ∀ args env, (c.run args env).2.history = env.history ∨ (c.run args env).2.history = []

theorem sparesHistory_of_reading {c : Command}
    {answer : List String → Environment → Except Fault Reply} (h : c.run = reading answer) :
    c.SparesHistory := by
  intro args env
  rw [h]
  exact .inl rfl

theorem Arrange.spareHistory :
    mkdir.SparesHistory ∧ touch.SparesHistory ∧ rm.SparesHistory ∧ rmdir.SparesHistory ∧
      mv.SparesHistory ∧ cp.SparesHistory := by
  refine ⟨?_, ?_, ?_, ?_, ?_, ?_⟩ <;> intro args env <;> left
  · simp only [mkdir, onTargets_history]
  · simp only [touch, onTargets_history]
  · simp only [rm, onTargets_history]
  · simp only [rmdir, onTargets_history]
  · simp only [mv, transfer_history]
  · simp only [cp, transfer_history]

theorem Memory.spareHistory :
    exportCommand.SparesHistory ∧ unset.SparesHistory ∧ aliasCommand.SparesHistory ∧
      unalias.SparesHistory := by
  refine ⟨?_, ?_, ?_, ?_⟩ <;> intro args env <;> left
  · simp only [exportCommand, runExport_history]
  · simp only [unset, runUnset_history]
  · simp only [aliasCommand, runAlias_history]
  · simp only [unalias, runUnalias_history]

theorem Memory.history_sparesHistory : history.SparesHistory := by
  intro args env
  simp only [history]
  exact runHistory_history args env

theorem Browse.cd_sparesHistory : cd.SparesHistory := by
  intro args env
  simp only [cd, runCd_history, true_or]

theorem sparesHistory_of_mem_builtinCommands : ∀ c ∈ builtinCommands, c.SparesHistory := by
  have reads {c : Command} {answer} (h : c.run = reading answer) := sparesHistory_of_reading h
  unfold builtinCommands
  rw [List.forall_mem_append]
  constructor
  · simp only [List.forall_mem_cons]
    obtain ⟨mkdir, touch, rm, rmdir, mv, cp⟩ := Arrange.spareHistory
    obtain ⟨exports, unset, aliases, unalias⟩ := Memory.spareHistory
    exact ⟨reads rfl, Browse.cd_sparesHistory, reads rfl, reads rfl, reads rfl,
      mkdir, touch, rm, rmdir, mv, cp,
      reads rfl, reads rfl, reads rfl, reads rfl, reads rfl, reads rfl,
      reads rfl, reads rfl, Memory.history_sparesHistory, reads rfl, exports, unset, aliases, unalias,
      reads rfl, reads rfl, reads rfl, List.forall_mem_nil _⟩
  · intro c hc
    obtain ⟨kind, -, rfl⟩ := List.mem_map.mp hc
    exact reads rfl

namespace Registry

def KeepsWithin (n : Nat) (r : Registry) : Prop :=
  ∀ name c, r.get? name = some c → c.KeepsWithin n

variable {n : Nat} {r : Registry}

theorem get?_register (r : Registry) (c : Command) (name : String) :
    (r.register c).get? name = if name = c.name then some c else r.get? name :=
  Table.get?_insert r.commands c.name c name

theorem KeepsWithin.register (h : r.KeepsWithin n) {c : Command} (hc : c.KeepsWithin n) :
    (r.register c).KeepsWithin n := by
  intro name d hd
  rw [get?_register] at hd
  split at hd
  · cases hd
    exact hc
  · exact h name d hd

theorem KeepsWithin.foldl_register (h : r.KeepsWithin n) {commands : List Command}
    (hc : ∀ c ∈ commands, c.KeepsWithin n) : (commands.foldl Registry.register r).KeepsWithin n := by
  induction commands generalizing r with
  | nil => exact h
  | cons c rest ih =>
    obtain ⟨hfirst, hrest⟩ := List.forall_mem_cons.mp hc
    exact ih (h.register hfirst) hrest

theorem standard_keepsWithin (n : Nat) : standard.KeepsWithin n := by
  refine KeepsWithin.foldl_register (fun name c hc => by cases hc) fun c hc args env hlen => ?_
  rcases sparesHistory_of_mem_builtinCommands c hc args env with he | he
  · rwa [he]
  · rw [he]
    exact Nat.zero_le n

/-- What is dispatched keeps to the length too, `help` and `which` included. -/
theorem KeepsWithin.dispatch (h : r.KeepsWithin n) {name : String} {args : List String}
    {env env' : Environment} {reply : Except Fault Reply} (hlen : env.history.length ≤ n)
    (hd : r.dispatch name args env = some (reply, env')) : env'.history.length ≤ n := by
  unfold Registry.dispatch at hd
  split at hd
  · cases hd
    exact hlen
  · split at hd
    · cases hd
      exact hlen
    · obtain ⟨c, hc, he⟩ := Option.map_eq_some_iff.mp hd
      have hkept := h name c hc args env hlen
      rwa [he] at hkept

end Registry
end PocketTerminal.Shell
