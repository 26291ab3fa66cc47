import PocketTerminal.Proofs.Files.Resolutions
import PocketTerminal.Proofs.Session.Outcomes
import PocketTerminal.Proofs.Shell.Stores
import PocketTerminal.Proofs.Text.Fillings

/-! # What the prompt tells of the working directory

The store of a session stays settled whatever is done to the session, so its working directory is
always a path in normal form that leads to a directory. The prompt shows a text for it that can be
typed, from anywhere, to get there, and that no other working directory is shown by. -/
namespace PocketTerminal.Session

open Chance (Stream)
open Files (Store)
open Shell (Reply)

variable {s : Session}

structure Housed (s : Session) : Prop where
  files : s.files.Settled
  registry : s.registry.KeepsSettled

theorem Housed.of_eq {t : Session} (h : s.Housed) (hfiles : t.files = s.files)
    (hregistry : t.registry = s.registry) : t.Housed :=
  ⟨hfiles ▸ h.files, hregistry ▸ h.registry⟩

theorem Housed.foldl_println (h : s.Housed) (lines : List String) :
    (lines.foldl Session.println s).Housed := by
  obtain ⟨shown, hshown⟩ := exists_foldl_println s lines
  rw [hshown]
  exact h.of_eq rfl rfl

theorem Housed.release? (h : s.Housed) {notice : Message} {t : Session}
    (ht : s.release? notice = some t) : t.Housed := by
  obtain ⟨program, -, rfl⟩ := Option.map_eq_some_iff.mp ht
  exact h.of_eq rfl rfl

theorem Housed.launchProgram (h : s.Housed) (kind : ProgramKind) (launch : Launch) :
    (s.launchProgram kind launch).Housed := by
  apply h.of_eq <;> simp only [Session.launchProgram, freeStream, Session.println, notify]

theorem Housed.display (h : s.Housed) (outcome : Outcome) : (s.display outcome).Housed := by
  cases outcome with
  | nothing => exact h
  | refusal line => exact h.of_eq rfl rfl
  | leave =>
    rw [Session.display]
    unfold Session.exit
    split
    · next t ht => exact h.release? ht
    · exact h.of_eq rfl rfl
  | reply reply =>
    cases reply with
    | text text => exact h.foldl_println _
    | silent => exact h
    | clear => exact h.of_eq rfl rfl
    | navigate pageSection => exact h.of_eq rfl rfl
    | launch kind launch => exact h.launchProgram kind launch

theorem Housed.wordsOutcome (h : s.Housed) (words : List String) :
    (s.wordsOutcome words).2.Housed := by
  unfold Session.wordsOutcome
  split
  · exact h
  · dsimp only
    split
    · next hd => exact ⟨h.registry.dispatch h.files hd, h.registry⟩
    · next hd => exact ⟨h.registry.dispatch h.files hd, h.registry⟩
    · exact h

theorem Housed.outcome (h : s.Housed) (line : String) : (s.outcome line).2.Housed := by
  have hremember : (s.remember line).Housed := h.of_eq rfl rfl
  unfold Session.outcome
  split
  · exact h
  · dsimp only
    split
    · exact hremember
    · exact hremember.wordsOutcome _

theorem Housed.launch (h : s.Housed) (line : String) : (s.launch line).Housed := by
  have hrun : (s.runLine line).Housed := by
    rw [runLine_eq]
    exact (h.outcome line).display _
  unfold Session.launch
  dsimp only
  split
  · exact hrun.of_eq rfl rfl
  · exact hrun

theorem Housed.press (h : s.Housed) (key : Key) : (s.press key).Housed := by
  unfold Session.press
  split
  · next program hrunning =>
    unfold pressProgram
    split
    · cases hr : s.release? .programTerminated with
      | none => exact h.of_eq rfl rfl
      | some t => exact (h.release? hr).of_eq rfl rfl
    · exact h.of_eq rfl rfl
  · rcases s.pressShell_cases key with hkey | ⟨t, ⟨input, recalled, rfl⟩, hkey⟩ | hkey
    · have hcleared : Session.Housed { s with input := "", recalled := none } := h.of_eq rfl rfl
      rw [hkey]
      exact (hcleared.launch s.input).of_eq rfl rfl
    · rw [hkey]
      exact h.of_eq rfl rfl
    · rw [hkey]
      exact h

theorem Housed.seedDefaults (h : s.Housed) : s.seedDefaults.Housed := h.of_eq rfl rfl

theorem housed_start (config : Config) (entropy : Stream) : (start config entropy).Housed := by
  let seeded := Store.ofSeeds config.files config.homePath
  have hempty : Housed { config := config, files := seeded, entropy := entropy } :=
    ⟨Store.settled_ofSeeds _ _, Shell.Registry.standard_keepsSettled⟩
  exact (hempty.seedDefaults.foldl_println config.introLines).of_eq rfl rfl

def Call.KeepsSettled (call : Call) : Prop :=
  ∀ command, call = .event (.register command) → command.KeepsSettled

theorem Housed.obey (h : s.Housed) {call : Call} (hcall : call.KeepsSettled) :
    (s.obey call).Housed := by
  cases call with
  | println line => exact h.of_eq rfl rfl
  | event event =>
    rw [Session.obey]
    cases event with
    | pressToken token =>
      unfold perform pressToken
      dsimp only
      split
      · exact h.press _
      · exact h
    | press key => exact h.press key
    | launch line => exact h.launch line
    | launchProgram kind launch => exact h.launchProgram kind launch
    | exitProgram =>
      unfold perform exitProgram
      dsimp only
      split
      · next t ht => exact (h.release? ht).of_eq rfl rfl
      · exact h
    | tick dt =>
      unfold perform tick
      dsimp only
      split
      · exact h.of_eq rfl rfl
      · exact h
    | applyConfig config =>
      have hbuilt := h.files.rebuild config.files config.homePath
      unfold perform applyConfig
      dsimp only
      split <;> exact ⟨hbuilt, h.registry⟩
    | register command => exact ⟨h.files, h.registry.register (hcall command rfl)⟩
    | listen => exact h.of_eq rfl rfl
    | render w height failing =>
      unfold perform render
      dsimp only
      split
      · exact h.of_eq rfl rfl
      · exact h

/-- The sessions that come of some calls, in which no command that was added unsettles a store. -/
inductive Reached : Session → Prop
  | start (config : Config) (entropy : Stream) : Reached (start config entropy)
  | obey {s : Session} {call : Call} : Reached s → call.KeepsSettled → Reached (s.obey call)

theorem Reached.housed (h : s.Reached) : s.Housed := by
  induction h with
  | start config entropy => exact housed_start config entropy
  | obey _ hcall ih => exact ih.obey hcall

theorem prompt_injective {t : Session} (hprompt : t.config.prompt = s.config.prompt)
    (hhole : 0 < Text.holes "cwd" s.config.prompt.toList) (h : t.prompt = s.prompt) :
    Path.display t.files.cwd t.files.home = Path.display s.files.cwd s.files.home := by
  rw [prompt, prompt, hprompt] at h
  exact Text.fill_injective (by decide) hhole h

theorem changeDir_display {files : Store} (h : files.Settled) (cwd : String) :
    Store.changeDir { files with cwd := cwd } (Path.display files.cwd files.home) =
      (true, files) := by
  have hback : Store.resolve { files with cwd := cwd } (Path.display files.cwd files.home) =
      files.cwd :=
    Path.resolve_display cwd files.home h.cwd_normal
  have hthere : Store.hasDirectory { files with cwd := cwd } files.cwd = true := by
    rw [Store.hasDirectory_with_cwd]
    exact h.cwd_directory
  rw [Store.changeDir, hback]
  exact if_pos hthere

/-- A path in normal form, as it is displayed, is read as that path, whatever home is and from
whatever directory, and no other path is displayed like it. So to type what the prompt of a session
shows for the working directory leads there from any directory of the store. While home stays, no
two working directories are shown alike, and if the prompt has a place for them, no two prompts
are. -/
theorem prompt_tells_directory {path : String} (hpath : Path.isNormal path = true) :
    (∀ cwd home, Path.resolve cwd home (Path.display path home) = path) ∧
    (∀ home other, Path.isNormal other = true →
      Path.display other home = Path.display path home → other = path) ∧
    ∀ s : Session, s.Reached →
      (∀ cwd, Store.changeDir { s.files with cwd := cwd }
        (Path.display s.files.cwd s.files.home) = (true, s.files)) ∧
      ∀ t : Session, t.Reached → t.files.home = s.files.home → t.files.cwd ≠ s.files.cwd →
        Path.display t.files.cwd t.files.home ≠ Path.display s.files.cwd s.files.home ∧
        (t.config.prompt = s.config.prompt → 0 < Text.holes "cwd" s.config.prompt.toList →
          t.prompt ≠ s.prompt) := by
  refine ⟨fun cwd home => Path.resolve_display cwd home hpath, ?_, ?_⟩
  · intro home other hother hsame
    exact Path.display_injective hother hpath hsame
  · intro s hs
    have hsettled := hs.housed.files
    refine ⟨changeDir_display hsettled, ?_⟩
    intro t ht hhome hcwd
    have hshown : Path.display t.files.cwd t.files.home ≠
        Path.display s.files.cwd s.files.home := by
      intro hsame
      rw [hhome] at hsame
      exact hcwd (Path.display_injective ht.housed.files.cwd_normal hsettled.cwd_normal hsame)
    exact ⟨hshown, fun hprompt hhole hsame => hshown (prompt_injective hprompt hhole hsame)⟩

/-- A name that starts with a tilde, and a session that goes to the root. -/
theorem prompt_tells_directory_tilde :
    Path.isNormal "/home/~u" = true ∧ Path.display "/home/~u" "/home" = "~/~u" ∧
      Path.resolve "/x" "/home" "~/~u" = "/home/~u" ∧
      ((start default default).obey (.event (.launch "cd /"))).prompt ≠
        (start default default).prompt := by
  have hpath : Path.isNormal "/home/~u" = true := by decide
  have hshown : Path.display "/home/~u" "/home" = "~/~u" := by decide
  obtain ⟨hback, -, hsessions⟩ := prompt_tells_directory hpath
  have hstart : (start default default).Reached := .start default default
  have hcall : (Call.event (.launch "cd /")).KeepsSettled := by
    intro command hregister
    cases hregister
  refine ⟨hpath, hshown, hshown ▸ hback "/x" "/home", ?_⟩
  refine ((hsessions _ hstart).2 _ (hstart.obey hcall) ?_ ?_).2 ?_ ?_
  · decide +kernel
  · decide +kernel
  · rfl
  · decide +kernel

end PocketTerminal.Session
