import PocketTerminal.Proofs.Shell.Refusals

/-! # What commands leave of the store

The commands of the shell change the store by its own operations only, so they leave a settled
store settled. -/
namespace PocketTerminal.Shell

open Files (Store)

def Command.KeepsSettled (c : Command) : Prop :=
  ∀ args env, env.files.Settled → (c.run args env).2.files.Settled

def Command.SparesFiles (c : Command) : Prop := ∀ args env, (c.run args env).2.files = env.files

theorem Command.SparesFiles.keepsSettled {c : Command} (h : c.SparesFiles) : c.KeepsSettled := by
  intro args env hsettled
  rw [h args env]
  exact hsettled

theorem sparesFiles_of_reading {c : Command}
    {answer : List String → Environment → Except Fault Reply} (h : c.run = reading answer) : c.SparesFiles := by
  intro args env
  rw [h]
  rfl

namespace Arrange

variable {files : Store}

theorem settled_forEach {change : Store → String → Option String × Store}
    (hchange : ∀ files target, files.Settled → (change files target).2.Settled)
    (h : files.Settled) (targets : List String) : (forEach change files targets).2.Settled := by
  induction targets generalizing files with
  | nil => exact h
  | cons target rest ih => exact ih (hchange files target h)

theorem keepsSettled_onTargets {name : String}
    {change : Messages → Store → String → Option String × Store}
    (hchange : ∀ messages files target, files.Settled → (change messages files target).2.Settled)
    (targets : List String) (env : Environment) (h : env.files.Settled) :
    (onTargets name change targets env).2.files.Settled := by
  unfold onTargets
  split
  · exact h
  · exact settled_forEach (hchange env.messages) h targets

theorem keepsSettled_transfer {usage : String} {failure : Message}
    {change : Store → String → String → Bool × Store}
    (hchange : ∀ files source destination, files.Settled →
      (change files source destination).2.Settled)
    (args : List String) (env : Environment) (h : env.files.Settled) :
    (transfer usage failure change args env).2.files.Settled := by
  unfold transfer
  split
  · next source destination =>
    have hchanged := hchange env.files source destination h
    split
    · exact h
    · split
      · next hdone => simpa only [hdone] using hchanged
      · next hdone => simpa only [hdone] using hchanged
  · exact h

theorem settled_makeDirectory (recursive : Bool) (messages : Messages) (target : String)
    (h : files.Settled) : (makeDirectory recursive messages files target).2.Settled := by
  have hmade := h.createDir target recursive
  unfold makeDirectory
  split
  · next hdone => simpa only [hdone] using hmade
  · next hdone => simpa only [hdone] using hmade

theorem settled_touchFile (messages : Messages) (target : String) (h : files.Settled) :
    (touchFile messages files target).2.Settled := by
  have hmade := h.createFile target ""
  unfold touchFile
  split
  · exact h
  · split
    · next hdone => simpa only [hdone] using hmade
    · next hdone => simpa only [hdone] using hmade

theorem settled_removeTarget (recursive force : Bool) (messages : Messages) (target : String)
    (h : files.Settled) : (removeTarget recursive force messages files target).2.Settled := by
  have hremoved := h.remove target recursive
  unfold removeTarget
  split <;> next hdone => simpa only [hdone] using hremoved

theorem settled_removeDirectory (messages : Messages) (target : String) (h : files.Settled) :
    (removeDirectory messages files target).2.Settled := by
  have hremoved := h.remove target false
  unfold removeDirectory
  split
  · exact h
  · split
    · exact h
    · split <;> next hdone => simpa only [hdone] using hremoved

theorem keepSettled :
    mkdir.KeepsSettled ∧ touch.KeepsSettled ∧ rm.KeepsSettled ∧ rmdir.KeepsSettled ∧
      mv.KeepsSettled ∧ cp.KeepsSettled := by
  refine ⟨?_, ?_, ?_, ?_, ?_, ?_⟩ <;> intro args env h
  · simp only [mkdir]
    refine keepsSettled_onTargets ?_ _ env h
    exact fun messages _ target => settled_makeDirectory _ messages target
  · simp only [touch]
    refine keepsSettled_onTargets ?_ _ env h
    exact fun messages _ target => settled_touchFile messages target
  · simp only [rm]
    refine keepsSettled_onTargets ?_ _ env h
    exact fun messages _ target => settled_removeTarget _ _ messages target
  · simp only [rmdir]
    refine keepsSettled_onTargets ?_ _ env h
    exact fun messages _ target => settled_removeDirectory messages target
  · simp only [mv]
    exact keepsSettled_transfer (fun _ source destination h => h.move source destination) args env h
  · simp only [cp]
    exact keepsSettled_transfer (fun _ source destination h => h.copy source destination) _ env h

end Arrange

theorem Browse.settled_runCd (args : List String) {env : Environment} (h : env.files.Settled) :
    (runCd args env).2.files.Settled := by
  have hchanged := h.changeDir (args.head?.getD "~")
  unfold runCd
  dsimp only
  split
  · next hdone => simpa only [hdone] using hchanged
  · next hdone =>
    rw [hdone] at hchanged
    split <;> exact hchanged

theorem Browse.cd_keepsSettled : cd.KeepsSettled := by
  intro args env h
  simp only [cd]
  exact settled_runCd args h

theorem Memory.spareFiles :
    Memory.history.SparesFiles ∧ exportCommand.SparesFiles ∧ unset.SparesFiles ∧
      aliasCommand.SparesFiles ∧ unalias.SparesFiles := by
  refine ⟨?_, ?_, ?_, ?_, ?_⟩ <;> intro args env
  · simp only [Memory.history]
    unfold runHistory
    split
    · split <;> rfl
    · rfl
    · rfl
  · simp only [exportCommand]
    unfold runExport
    split <;> rfl
  · simp only [unset]
    unfold runUnset
    split <;> rfl
  · simp only [aliasCommand]
    unfold runAlias
    split
    · split <;> rfl
    · split
      · dsimp only
        split <;> rfl
      · split <;> rfl
  · simp only [unalias]
    unfold runUnalias
    split <;> rfl

theorem keepsSettled_of_mem_builtinCommands : ∀ c ∈ builtinCommands, c.KeepsSettled := by
  have reads {c : Command} {answer} (h : c.run = reading answer) :=
    (sparesFiles_of_reading h).keepsSettled
  unfold builtinCommands
  rw [List.forall_mem_append]
  constructor
  · simp only [List.forall_mem_cons]
    obtain ⟨mkdir, touch, rm, rmdir, mv, cp⟩ := Arrange.keepSettled
    obtain ⟨history, exports, unset, aliases, unalias⟩ := Memory.spareFiles
    exact ⟨reads rfl, Browse.cd_keepsSettled, reads rfl, reads rfl, reads rfl,
      mkdir, touch, rm, rmdir, mv, cp,
      reads rfl, reads rfl, reads rfl, reads rfl, reads rfl, reads rfl,
      reads rfl, reads rfl, history.keepsSettled, reads rfl, exports.keepsSettled,
      unset.keepsSettled, aliases.keepsSettled, unalias.keepsSettled,
      reads rfl, reads rfl, reads rfl, List.forall_mem_nil _⟩
  · intro c hc
    obtain ⟨kind, -, rfl⟩ := List.mem_map.mp hc
    exact reads rfl

namespace Registry

def KeepsSettled (r : Registry) : Prop := ∀ name c, r.get? name = some c → c.KeepsSettled

variable {r : Registry}

theorem KeepsSettled.register (h : r.KeepsSettled) {c : Command} (hc : c.KeepsSettled) :
    (r.register c).KeepsSettled := by
  intro name d hd
  rw [get?_register] at hd
  split at hd
  · cases hd
    exact hc
  · exact h name d hd

theorem standard_keepsSettled : standard.KeepsSettled := fun _ c hc =>
  keepsSettled_of_mem_builtinCommands c (mem_builtinCommands_of_standard hc)

/-- What is dispatched leaves a settled store too, `help` and `which` included. -/
theorem KeepsSettled.dispatch (h : r.KeepsSettled) {name : String} {args : List String}
    {env env' : Environment} {reply : Except Fault Reply} (hsettled : env.files.Settled)
    (hd : r.dispatch name args env = some (reply, env')) : env'.files.Settled := by
  rcases dispatch_cases hd with hkept | ⟨-, -, c, hc, hrun⟩
  · rw [show env' = env from hkept]
    exact hsettled
  · have hleft := h name c hc args env hsettled
    rwa [hrun] at hleft

end Registry
end PocketTerminal.Shell
