import PocketTerminal.Proofs.Arcade.PacmanGames

/-! # Runs among ghosts

A game is driven by keys and steps. A key restarts it when it is over; between two restarts the
walls stay as they are and nothing to eat comes back. -/
namespace PocketTerminal.Arcade.Pacman

open Chance (Stream)

inductive Call where
  | press (key : Key)
  | step
deriving DecidableEq, Repr

variable {g : Pacman} {call : Call} {calls : List Call}

def perform (g : Pacman) : Call → Pacman
  | .press key => g.press key
  | .step => g.step

def run (g : Pacman) (calls : List Call) : Pacman := calls.foldl perform g

def restarts (g : Pacman) : Call → Bool
  | .press key => (key = .enter || key.lowerChar = some 'r') && g.outcome != .playing
  | .step => false

/-- No call in a row starts another game. -/
def sameGame (g : Pacman) : List Call → Bool
  | [] => true
  | call :: calls => !g.restarts call && (g.perform call).sameGame calls

theorem press_cases (g : Pacman) (key : Key) :
    (∃ dir, g.press key = { g with nextDir := dir }) ∨
      g.restarts (.press key) = true ∧ g.press key = create g.seed g.stream := by
  unfold press
  split
  · next hover =>
    split
    · next hkey =>
      refine .inr ⟨?_, rfl⟩
      rw [restarts, hkey, hover]
      rfl
    · exact .inl ⟨g.nextDir, rfl⟩
  · split
    · next d _ => exact .inl ⟨some d, rfl⟩
    · exact .inl ⟨g.nextDir, rfl⟩

theorem Orderly.perform (h : g.Orderly) (call : Call) : (g.perform call).Orderly := by
  cases call with
  | press key =>
    rcases press_cases g key with ⟨dir, heq⟩ | ⟨-, heq⟩
    · rw [Pacman.perform, heq]
      exact ⟨h.border, h.player, h.three, h.ghosts⟩
    · rw [Pacman.perform, heq]
      exact orderly_create g.seed g.stream
  | step => exact h.step

theorem Orderly.run (h : g.Orderly) (calls : List Call) : (g.run calls).Orderly := by
  induction calls generalizing g with
  | nil => exact h
  | cons call calls ih => exact ih (h.perform call)

theorem maze_perform (g : Pacman) (hgame : g.restarts call = false) :
    (∀ p, (g.perform call).maze.isWall p = g.maze.isWall p) ∧
      (g.perform call).maze.pelletsLeft ≤ g.maze.pelletsLeft := by
  cases call with
  | press key =>
    rcases press_cases g key with ⟨dir, heq⟩ | ⟨hrestarts, -⟩
    · rw [perform, heq]
      exact ⟨fun _ => rfl, Nat.le_refl _⟩
    · rw [hgame] at hrestarts
      cases hrestarts
  | step => exact ⟨(stepped_step g).walls, (stepped_step g).pellets⟩

theorem maze_run (g : Pacman) (hgame : g.sameGame calls = true) :
    (∀ p, (g.run calls).maze.isWall p = g.maze.isWall p) ∧
      (g.run calls).maze.pelletsLeft ≤ g.maze.pelletsLeft := by
  induction calls generalizing g with
  | nil => exact ⟨fun _ => rfl, Nat.le_refl _⟩
  | cons call calls ih =>
    rw [sameGame, Bool.and_eq_true, Bool.not_eq_true'] at hgame
    obtain ⟨hfirst, hrest⟩ := hgame
    obtain ⟨hwalls, hpellets⟩ := maze_perform g hfirst
    obtain ⟨hwalls', hpellets'⟩ := ih (g.perform call) hrest
    exact ⟨fun p => (hwalls' p).trans (hwalls p), Nat.le_trans hpellets' hpellets⟩

/-- After any calls nobody is in a wall. Within a game the walls stay and what is left to eat
does not grow. A step from there moves the player by a cell at most, and each ghost as
`Ghost.Stepped` says; a ghost that moves does not turn back where another way is open. -/
theorem run_orderly (seed : Option UInt64) (free : Stream) (before within : List Call)
    (hgame : ((create seed free).run before).sameGame within = true) :
    let g := (create seed free).run before
    let g' := g.run within
    g'.Orderly ∧ (∀ p, g'.maze.isWall p = g.maze.isWall p) ∧
      g'.maze.pelletsLeft ≤ g.maze.pelletsLeft ∧ g'.Stepped g'.step ∧
      ∀ (ghost : Ghost) (s : Stream), ghost.Goes g'.maze (g'.moveGhost ghost s).1 := by
  intro g g'
  have horderly : g'.Orderly := ((orderly_create seed free).run before).run within
  obtain ⟨hwalls, hpellets⟩ := maze_run g hgame
  exact ⟨horderly, hwalls, hpellets, stepped_step g', goes_moveGhost g'⟩

/-- A turn and a step of a new game. -/
theorem run_orderly_first_step :
    ((create (some 1) default).run []).sameGame [.press .arrowLeft, .step] = true ∧
      (((create (some 1) default).run []).run [.press .arrowLeft, .step]).Orderly := by
  have hgame : ((create (some 1) default).run []).sameGame [.press .arrowLeft, .step] = true := by
    simp [sameGame, restarts, Key.lowerChar]
  exact ⟨hgame, (run_orderly (some 1) default [] [.press .arrowLeft, .step] hgame).1⟩

end PocketTerminal.Arcade.Pacman
