import PocketTerminal.Proofs.Files.Homes
import PocketTerminal.Proofs.Session.Printed
import PocketTerminal.Proofs.Tables

/-! # Reloading the configuration

Another configuration builds the tree anew and leaves the session alone otherwise: its working
directory where the new tree has it, its variables and aliases, its history, the line being typed
and the running program. Of the output only the prompt is brought up to date, and to reload the
same configuration again does nothing but tell the host once more. -/
namespace PocketTerminal.Session

open Chance (Stream)
open Files (Sight Store)

variable {s : Session} {config : Config}

def usualVars (config : Config) : List (String × String) :=
  [("USER", Path.fileName config.homePath), ("SHELL", "folio")]

theorem get?_seedDefaults (s : Session) (name : String) :
    s.seedDefaults.vars.get? name = if name = "HOME" then some s.config.homePath
      else (s.vars.get? name).or ((usualVars s.config).lookup name) := by
  simp only [seedDefaults, Table.get?_insertNew, Table.get?_insert, usualVars, Table.lookup_cons]
  by_cases hhome : name = "HOME"
  · simp [hhome]
  · by_cases huser : name = "USER"
    · simp [huser]
    · by_cases hshell : name = "SHELL"
      · simp [hshell]
      · simp [hhome, huser, hshell]

theorem aliases_seedDefaults (s : Session) : s.seedDefaults.aliases.isEmpty = false := by
  simp only [seedDefaults]
  split
  · exact Table.isEmpty_of_get? (by rw [Table.get?_insert, if_pos rfl])
  · next hfull => exact eq_false_of_ne_true hfull

theorem seedDefaults_eq_self {user shell : String}
    (hhome : s.vars.get? "HOME" = some s.config.homePath) (huser : s.vars.get? "USER" = some user)
    (hshell : s.vars.get? "SHELL" = some shell) (haliases : s.aliases.isEmpty = false) :
    s.seedDefaults = s := by
  rw [seedDefaults, Table.insert_of_get? hhome, Table.insertNew_of_get? huser,
    Table.insertNew_of_get? hshell, haliases]
  rfl

def reconfigured (s : Session) (config : Config) : Session :=
  seedDefaults { s with files := s.files.rebuild config.files config.homePath, config := config }

def reloadedLines (s : Session) (config : Config) : List String :=
  if s.running.isNone then s.lines.dropLast ++ [(s.reconfigured config).promptLine] else s.lines

theorem applyConfig_eq (s : Session) (config : Config) :
    s.applyConfig config = { s.reconfigured config with
      lines := s.reloadedLines config, redraws := s.redraws.map (· + 1) } := by
  cases hrunning : s.running <;>
    simp only [applyConfig, reconfigured, reloadedLines, seedDefaults, syncPrompt, notify, hrunning,
      Option.isNone_none, Option.isNone_some, if_true, Bool.false_eq_true, if_false, promptLine, prompt]

theorem get?_reconfigured (s : Session) (config : Config) (name : String) :
    (s.reconfigured config).vars.get? name = if name = "HOME" then some config.homePath
      else (s.vars.get? name).or ((usualVars config).lookup name) :=
  get?_seedDefaults _ name

/-- Where the tree is built already and nothing is missing that every session has, the same
configuration makes no difference. -/
theorem reconfigured_eq_self {user shell : String}
    (hfiles : s.files.rebuild s.config.files s.config.homePath = s.files)
    (hhome : s.vars.get? "HOME" = some s.config.homePath) (huser : s.vars.get? "USER" = some user)
    (hshell : s.vars.get? "SHELL" = some shell) (haliases : s.aliases.isEmpty = false) :
    s.reconfigured s.config = s := by
  rw [reconfigured, hfiles]
  exact seedDefaults_eq_self hhome huser hshell haliases

theorem reconfigured_applyConfig (s : Session) (config : Config) :
    (s.applyConfig config).reconfigured config = s.applyConfig config := by
  have hgiven : ∀ name value, name ≠ "HOME" → (usualVars config).lookup name = some value →
      ∃ held, (s.reconfigured config).vars.get? name = some held := by
    intro name value hname husual
    rw [get?_reconfigured, if_neg hname, husual]
    cases s.vars.get? name with
    | none => exact ⟨value, rfl⟩
    | some held => exact ⟨held, rfl⟩
  obtain ⟨user, huser⟩ := hgiven "USER" _ (by decide) rfl
  obtain ⟨shell, hshell⟩ := hgiven "SHELL" _ (by decide) rfl
  rw [applyConfig_eq]
  exact reconfigured_eq_self (Store.rebuild_rebuild s.files config.files config.homePath)
    (get?_reconfigured s config "HOME") huser hshell (aliases_seedDefaults _)

theorem reloadedLines_applyConfig (s : Session) (config : Config) :
    (s.applyConfig config).reloadedLines config = (s.applyConfig config).lines := by
  have hprompt : (s.applyConfig config).promptLine = (s.reconfigured config).promptLine := by
    rw [applyConfig_eq]
    rfl
  have hrunning : (s.applyConfig config).running = s.running := by
    rw [applyConfig_eq]
    rfl
  have hlines : (s.applyConfig config).lines = s.reloadedLines config := by
    rw [applyConfig_eq]
  rw [reloadedLines, reconfigured_applyConfig, hprompt, hrunning, hlines]
  split
  · next hshell => rw [reloadedLines, if_pos hshell, List.dropLast_concat]
  · rfl

theorem applyConfig_applyConfig (s : Session) (config : Config) :
    (s.applyConfig config).applyConfig config = (s.applyConfig config).notify := by
  rw [applyConfig_eq (s.applyConfig config), reconfigured_applyConfig, reloadedLines_applyConfig]
  rfl

/-- The session `t` that a session `s` has become under a new configuration. -/
structure Reloaded (s : Session) (config : Config) (t : Session) : Prop where
  configured : t.config = config
  /-- The tree and the home of the seed records alone. -/
  files : t.files = { Store.ofSeeds config.files config.homePath with cwd := t.files.cwd }
  home : t.files.home = Path.normalize config.homePath
  /-- The working directory is kept where its components lead to a directory of the new tree. -/
  cwd : t.files.cwd =
    if ((Store.ofSeeds config.files config.homePath).sight? (Path.components s.files.cwd)).any
      Sight.isDirectory then s.files.cwd else t.files.home
  directory : t.files.hasDirectory t.files.cwd
  vars : ∀ name value, name ≠ "HOME" → s.vars.get? name = some value →
    t.vars.get? name = some value
  newVars : ∀ name, name ≠ "HOME" → s.vars.get? name = none →
    t.vars.get? name = (usualVars config).lookup name
  aliases : s.aliases.isEmpty = false → t.aliases = s.aliases
  history : t.history = s.history
  input : t.input = s.input
  recalled : t.recalled = s.recalled
  running : t.running = s.running
  registry : t.registry = s.registry
  entropy : t.entropy = s.entropy
  visited : t.visited = s.visited
  /-- While the shell has the keys, the last line is the only one that is another. -/
  shell : s.running = none →
    ∃ earlier last, s.lines = earlier ++ [last] ∧ t.lines = earlier ++ [t.prompt ++ t.input]
  busy : ∀ program, s.running = some program → t.lines = s.lines
  redraws : t.redraws = s.redraws.map (· + 1)
  again : t.applyConfig config = t.notify

theorem applyConfig_reloaded (hfilled : s.running = none → s.lines ≠ []) (config : Config) :
    Reloaded s config (s.applyConfig config) := by
  have hagain := applyConfig_applyConfig s config
  have hvars := get?_reconfigured s config
  have hfiles := Store.rebuild_eq s.files config.files config.homePath
  have hhome := Store.rebuild_home s.files config.files config.homePath
  generalize ht : s.applyConfig config = t at hagain ⊢
  rw [applyConfig_eq] at ht
  subst ht
  exact {
    configured := rfl
    files := congrArg (fun store => { store with cwd := (s.reconfigured config).files.cwd }) hfiles
    home := hhome
    cwd := by
      change (s.files.rebuild config.files config.homePath).cwd = if _ then _ else
        (s.files.rebuild config.files config.homePath).home
      rw [hhome, hfiles]
    directory := Store.rebuild_directory s.files config.files config.homePath
    vars := fun name value hname hheld => by
      refine (hvars name).trans ?_
      rw [if_neg hname, hheld]
      rfl
    newVars := fun name hname hnone => by
      refine (hvars name).trans ?_
      rw [if_neg hname, hnone]
      rfl
    aliases := fun hfull => if_neg (ne_true_of_eq_false hfull)
    history := rfl
    input := rfl
    recalled := rfl
    running := rfl
    registry := rfl
    entropy := rfl
    visited := rfl
    shell := fun hshell => by
      refine ⟨s.lines.dropLast, s.lines.getLast (hfilled hshell),
        (List.dropLast_concat_getLast (hfilled hshell)).symm, ?_⟩
      exact if_pos (Option.isNone_iff_eq_none.mpr hshell)
    busy := fun program hbusy => if_neg (by rw [hbusy]; exact Bool.false_ne_true)
    redraws := rfl
    again := hagain }

theorem Write.apply_ne_nil {write : Write} (hwrite : write ≠ .clear) (lines : List String) :
    write.apply lines ≠ [] := by
  cases write with
  | print line | prompt line =>
    intro hnil
    have hlast := getLast?_keepLast (n := maxLines) (by decide) lines line
    rw [show keepLast maxLines (lines ++ [line]) = [] from hnil] at hlast
    cases hlast
  | rewrite line => exact List.concat_ne_nil line _
  | clear => exact absurd rfl hwrite

/-- While the shell has the keys there is a last line, the prompt or one of the host's own. -/
theorem lines_ne_nil {entropy : Stream} {calls : List Call}
    (hshell : (reach config entropy calls).running = none) :
    (reach config entropy calls).lines ≠ [] := by
  have hwritten : ∃ earlier write, transcript config entropy calls = earlier ++ [write] ∧
      write ≠ .clear := by
    rcases shows_of_shell hshell with ⟨earlier, hlast | hlast⟩ | ⟨line, before, after, -, -, hlast⟩
    all_goals exact ⟨_, _, hlast, nofun⟩
  obtain ⟨earlier, write, hlast, hwrite⟩ := hwritten
  rw [lines_reach, hlast, List.foldl_append]
  exact Write.apply_ne_nil hwrite _

/-- Whatever was done to a session before, and whatever the new configuration is, the tree is the
one of its seed records and the working directory is kept where that tree has it. All else that
the session had it keeps, but for the variable that names home and for the prompt, and to load
the configuration once more only tells the host. -/
theorem reach_reload (config : Config) (entropy : Stream) (calls : List Call) (newer : Config) :
    Reloaded (reach config entropy calls) newer ((reach config entropy calls).applyConfig newer) :=
  applyConfig_reloaded lines_ne_nil newer

end PocketTerminal.Session
