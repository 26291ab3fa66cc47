import PocketTerminal.Proofs.Session.Reloads

/-! # The variables that name home and user

The variables of a session name home as the configuration spells it, and the user by what stands
behind the last slash of that. The store has home in normal form. So the two agree just where the
configuration spells home in normal form, and the name of the user just where the spelling ends
with a name. -/
namespace PocketTerminal.Session

open Chance (Stream)
open Files (Store)

variable {s : Session} {config : Config}

def NamesHome (s : Session) : Prop := s.vars.get? "HOME" = some s.files.home

def NamesUser (s : Session) : Prop := s.vars.get? "USER" = some (Path.fileName s.files.home)

/-- At the start a session has what every session has, and its greeting. -/
theorem exists_start (config : Config) (entropy : Stream) :
    ∃ shown, start config entropy = { seedDefaults
      { config := config, files := Store.ofSeeds config.files config.homePath, entropy := entropy }
      with lines := shown } := by
  unfold start
  dsimp only
  obtain ⟨greeting, hgreeting⟩ := exists_foldl_println (seedDefaults
    { config := config, files := Store.ofSeeds config.files config.homePath, entropy := entropy })
    config.introLines
  rw [hgreeting]
  exact ⟨_, rfl⟩

theorem get?_start (config : Config) (entropy : Stream) (name : String) :
    (start config entropy).vars.get? name = if name = "HOME" then some config.homePath
      else (usualVars config).lookup name := by
  obtain ⟨shown, hstart⟩ := exists_start config entropy
  rw [hstart]
  exact get?_seedDefaults _ name

theorem home_start (config : Config) (entropy : Stream) :
    (start config entropy).files.home = Path.normalize config.homePath := by
  obtain ⟨shown, hstart⟩ := exists_start config entropy
  rw [hstart]
  exact (Store.ofSeeds_dirs config.files config.homePath).2

theorem namesHome_iff (hhome : s.vars.get? "HOME" = some config.homePath)
    (hfiles : s.files.home = Path.normalize config.homePath) :
    s.NamesHome ↔ Path.isNormal config.homePath = true := by
  rw [NamesHome, hhome, hfiles, Option.some_inj, eq_comm]
  exact Path.normalize_eq_self_iff

theorem namesHome_start_iff (config : Config) (entropy : Stream) :
    (start config entropy).NamesHome ↔ Path.isNormal config.homePath = true :=
  namesHome_iff (get?_start config entropy "HOME") (home_start config entropy)

theorem namesHome_applyConfig_iff (s : Session) (config : Config) :
    (s.applyConfig config).NamesHome ↔ Path.isNormal config.homePath = true := by
  rw [applyConfig_eq]
  exact namesHome_iff (get?_reconfigured s config "HOME")
    (Store.rebuild_home s.files config.files config.homePath)

theorem namesUser_start_iff (config : Config) (entropy : Stream) :
    (start config entropy).NamesUser ↔
      Path.ProperName (Path.fileName config.homePath) ∨
        Path.fileName config.homePath = "" ∧ Path.normalize config.homePath = "/" := by
  have huser : (start config entropy).vars.get? "USER" = some (Path.fileName config.homePath) :=
    get?_start config entropy "USER"
  rw [NamesUser, huser, home_start, Option.some_inj, eq_comm]
  exact Path.fileName_normalize_iff

/-- At the start and under another configuration, the variable for home says where the store has its
home if the configuration spells home in normal form, and not otherwise. The user is named after
that home at the start if the spelling ends with a name, or else with a slash where it leads to the
root, and not otherwise. -/
theorem names_home_iff (config : Config) (entropy : Stream) (s : Session) :
    ((start config entropy).NamesHome ↔ Path.isNormal config.homePath = true) ∧
      ((s.applyConfig config).NamesHome ↔ Path.isNormal config.homePath = true) ∧
      ((start config entropy).NamesUser ↔
        Path.ProperName (Path.fileName config.homePath) ∨
          Path.fileName config.homePath = "" ∧ Path.normalize config.homePath = "/") :=
  ⟨namesHome_start_iff config entropy, namesHome_applyConfig_iff s config,
    namesUser_start_iff config entropy⟩

def slashedHome : Config := { homePath := "/home/x/" }

/-- With a slash at its end home is accepted, and neither variable agrees with the store. -/
theorem slashed_home_differs :
    Config.check slashedHome = .ok slashedHome ∧
      ¬ (start slashedHome).NamesHome ∧ ¬ ((start default).applyConfig slashedHome).NamesHome ∧
      (start slashedHome).vars.get? "USER" = some "" ∧
      Path.fileName (start slashedHome).files.home = "x" := by
  have hspelled : Path.isNormal slashedHome.homePath = false := by decide
  refine ⟨rfl, ?_, ?_, ?_, ?_⟩
  · rw [namesHome_start_iff, hspelled]
    exact Bool.false_ne_true
  · rw [namesHome_applyConfig_iff, hspelled]
    exact Bool.false_ne_true
  · rw [get?_start]
    decide
  · rw [home_start]
    decide

end PocketTerminal.Session
