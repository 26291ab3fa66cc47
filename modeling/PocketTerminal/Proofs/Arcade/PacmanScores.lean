import Mathlib.Algebra.GroupWithZero.Nat
import PocketTerminal.Proofs.Arcade.PacmanContacts

/-! # Scores

A score is what has gone from the maze and the ghosts that were eaten. A power pellet scares three
ghosts, and a ghost that is eaten has to be scared again before it can be eaten again, so ghosts
eaten and ghosts still scared are at most three for each power pellet gone. -/
namespace PocketTerminal.Arcade

open Chance (Stream)

namespace Maze

variable {m m' : Maze} {p : Cell} {tile sort : Tile}

/-- How many cells with such a tile have another one in a later maze. -/
def gone (m : Maze) (sort : Tile) (m' : Maze) : Nat :=
  cells.countP fun p => m.get p == sort && m'.get p != sort

theorem gone_self (m : Maze) (sort : Tile) : m.gone sort m = 0 :=
  List.countP_eq_zero.mpr fun p _ => by simp

/-- A maze in which something may have been eaten since. -/
def Grazed (m m' : Maze) : Prop := ∀ p, m'.get p = m.get p ∨ m'.get p = .empty

theorem Grazed.set_empty (h : m.Grazed m') (hp : OnGrid p) : m.Grazed (m'.set p .empty) := by
  intro q
  rw [get_set hp]
  split
  · exact .inr rfl
  · exact h q

/-- What is eaten has been there all along, and counts for its own sort and for no other. -/
theorem Grazed.gone_set_empty (h : m.Grazed m') (hp : OnGrid p) (hget : m'.get p = tile)
    (hfull : tile ≠ .empty) (hsort : sort ≠ .empty) :
    m.gone sort (m'.set p .empty) = m.gone sort m' + if tile = sort then 1 else 0 := by
  have hfirst : m.get p = tile := ((h p).resolve_right (hget ▸ hfull)).symm.trans hget
  have hother : ∀ q, q ≠ p → (m.get q == sort && (m'.set p .empty).get q != sort) =
      (m.get q == sort && m'.get q != sort) := by
    intro q hq
    rw [get_set hp, if_neg hq]
  have hcount := countP_update nodup_cells (mem_cells_iff.mpr hp) hother
  have hbefore : (m.get p == sort && m'.get p != sort) = false := by
    rw [hfirst, hget]
    by_cases he : tile = sort <;> simp [he]
  have hafter : (m.get p == sort && (m'.set p .empty).get p != sort) = (tile == sort) := by
    rw [get_set hp, if_pos rfl, hfirst, bne_iff_ne.mpr hsort.symm, Bool.and_true]
  rw [hbefore, hafter, if_neg Bool.false_ne_true, Nat.add_zero] at hcount
  simpa only [gone, beq_iff_eq] using hcount

theorem gone_le (m : Maze) (sort : Tile) (m' : Maze) : m.gone sort m' ≤ 315 :=
  Nat.le_trans List.countP_le_length (Nat.le_of_eq length_cells)

/-- A maze that can be won has power pellets in its four corners only. -/
theorem Winnable.gone_power_le (h : m.Winnable) (m' : Maze) : m.gone .power m' ≤ 4 := by
  have hcorner : ∀ p, m.get p = .power → p ∈ powerCells := by
    intro p hp
    by_contra hmem
    have hopen : m.isWall p = false := by
      rw [isWall, hp]
      rfl
    by_cases hstart : p = playerStart
    · rw [hstart, h.start] at hp
      cases hp
    · rw [h.pellets p hopen hmem hstart] at hp
      cases hp
  rw [gone, List.countP_eq_length_filter]
  refine ((nodup_cells.filter _).subperm (fun p hp => hcorner p ?_)).length_le
  exact beq_iff_eq.mp (Bool.and_eq_true_iff.mp (List.mem_filter.mp hp).2).1

end Maze

namespace Pacman

variable {g before : Pacman} {m : Maze} {k : Nat} {player : Cell} {ghosts : List Ghost}

/-- How many scared ghosts the player meets: those in his cell before the first calm one there,
which ends the game. -/
def scaredContacts (player : Cell) (ghosts : List Ghost) : Nat :=
  (ghosts.takeWhile fun ghost => ghost.pos != player || 0 < ghost.scared).countP fun ghost =>
    ghost.pos == player

def scaredCount (ghosts : List Ghost) : Nat := ghosts.countP fun ghost => 0 < ghost.scared

theorem scaredCount_le (ghosts : List Ghost) : scaredCount ghosts ≤ ghosts.length :=
  List.countP_le_length

theorem eaten_contacts (player : Cell) (ghosts : List Ghost) :
    (contacts player ghosts).2.1 = scaredContacts player ghosts := by
  induction ghosts with
  | nil => rfl
  | cons ghost rest ih =>
    unfold scaredContacts at ih ⊢
    by_cases hpos : ghost.pos = player
    · rcases Nat.eq_zero_or_pos ghost.scared with hcalm | hscared
      · rw [contacts_of_calm hpos hcalm]
        simp [hpos, hcalm]
      · rw [contacts_of_scared hpos hscared]
        simp [hpos, hscared, ih]
    · rw [contacts_of_away hpos]
      simp [hpos, ih]

/-- A ghost that is eaten is scared no longer. -/
theorem scaredCount_contacts (player : Cell) (ghosts : List Ghost) :
    scaredCount (contacts player ghosts).1 + (contacts player ghosts).2.1 = scaredCount ghosts := by
  induction ghosts with
  | nil => rfl
  | cons ghost rest ih =>
    unfold scaredCount at ih ⊢
    by_cases hpos : ghost.pos = player
    · rcases Nat.eq_zero_or_pos ghost.scared with hcalm | hscared
      · rw [contacts_of_calm hpos hcalm]
        rfl
      · rw [contacts_of_scared hpos hscared, List.countP_cons, List.countP_cons]
        simp only [Ghost.sentHome, hscared, decide_true, Nat.lt_irrefl, decide_false,
          Bool.false_eq_true, ↓reduceIte]
        omega
    · rw [contacts_of_away hpos, List.countP_cons, List.countP_cons]
      dsimp only
      omega

def contactsBy (g : Pacman) : Call → Nat
  | .press _ => 0
  | .step => (g.moments.map fun before => scaredContacts before.player before.ghosts).sum

def contactsAlong (g : Pacman) : List Call → Nat
  | [] => 0
  | call :: calls => g.contactsBy call + (g.perform call).contactsAlong calls

/-- A game begun in such a maze, in which the player has met so many scared ghosts. -/
structure Balanced (m : Maze) (k : Nat) (g : Pacman) : Prop where
  grazed : m.Grazed g.maze
  score : g.score = 10 * m.gone .pellet g.maze + 50 * m.gone .power g.maze + 200 * k
  /-- Ghosts that were met and ghosts that still may be. -/
  reserve : k + scaredCount g.ghosts ≤ 3 * m.gone .power g.maze
  three : g.ghosts.length = 3

theorem Balanced.of_eq (h : Balanced m k g) {g' : Pacman} (hmaze : g'.maze = g.maze)
    (hscore : g'.score = g.score) (hscared : scaredCount g'.ghosts ≤ scaredCount g.ghosts)
    (hthree : g'.ghosts.length = g.ghosts.length) : Balanced m k g' := by
  constructor
  · rw [hmaze]
    exact h.grazed
  · rw [hmaze, hscore]
    exact h.score
  · rw [hmaze]
    exact Nat.le_trans (Nat.add_le_add_left hscared k) h.reserve
  · exact hthree.trans h.three

theorem Balanced.elapse (h : Balanced m k g) : Balanced m k g.elapse := by
  refine h.of_eq rfl rfl ?_ (List.length_map _)
  rw [Pacman.elapse, scaredCount, List.countP_map]
  refine List.countP_mono_left fun ghost _ hscared => ?_
  simp only [Function.comp_apply, decide_eq_true_eq] at hscared ⊢
  omega

theorem Balanced.eat (h : Balanced m k g) (hopen : g.maze.isWall g.player = false) :
    Balanced m k g.eat := by
  have hgrid := Maze.onGrid_of_open hopen
  have hscore := h.score
  have hreserve := h.reserve
  unfold Pacman.eat
  split
  · next hget =>
    have hpellets : m.gone .pellet (g.maze.set g.player .empty) = m.gone .pellet g.maze + 1 :=
      h.grazed.gone_set_empty hgrid hget nofun nofun
    have hpowers : m.gone .power (g.maze.set g.player .empty) = m.gone .power g.maze :=
      h.grazed.gone_set_empty hgrid hget nofun nofun
    refine ⟨h.grazed.set_empty hgrid, ?_, ?_, h.three⟩
    · dsimp only [pelletPoints]
      omega
    · dsimp only
      omega
  · next hget =>
    have hpellets : m.gone .pellet (g.maze.set g.player .empty) = m.gone .pellet g.maze :=
      h.grazed.gone_set_empty hgrid hget nofun nofun
    have hpowers : m.gone .power (g.maze.set g.player .empty) = m.gone .power g.maze + 1 :=
      h.grazed.gone_set_empty hgrid hget nofun nofun
    have hscared := scaredCount_le (g.ghosts.map fun ghost => { ghost with scared := scaredSteps })
    rw [List.length_map, h.three] at hscared
    refine ⟨h.grazed.set_empty hgrid, ?_, ?_, (List.length_map _).trans h.three⟩
    · dsimp only [powerPoints]
      omega
    · dsimp only
      omega
  · exact h
  · exact h

theorem Balanced.movePlayer (h : Balanced m k g) : Balanced m k g.movePlayer := by
  rcases movePlayer_cases g with ⟨dir, heq⟩ | ⟨d, hopen, heq⟩
  · rw [heq]
    exact h.of_eq rfl rfl (Nat.le_refl _) rfl
  · rw [heq]
    have hmoved : Balanced m k { g with dir := some d, player := shift g.player d } :=
      h.of_eq rfl rfl (Nat.le_refl _) rfl
    exact hmoved.eat hopen

/-- Each scared ghost that is met goes from one side of the reserve to the other. -/
theorem Balanced.resolve (h : Balanced m k g) :
    Balanced m (k + scaredContacts g.player g.ghosts) g.resolve := by
  have hscore := h.score
  have hreserve := h.reserve
  have hscared := scaredCount_contacts g.player g.ghosts
  rw [eaten_contacts] at hscared
  rw [resolve_eq, eaten_contacts]
  refine ⟨h.grazed, ?_, ?_, (meets_contacts _ _).length_eq.symm.trans h.three⟩
  · dsimp only [ghostPoints]
    omega
  · dsimp only
    omega

theorem scared_of_goes {ghost ghost' : Ghost} (h : ghost.Goes m ghost') :
    ghost'.scared = ghost.scared := by
  cases h <;> rfl

theorem Balanced.moveGhosts (h : Balanced m k g) : Balanced m k g.moveGhosts := by
  have hgoes := goes_moveEach g g.ghosts g.stream
  rw [moveGhosts_eq]
  refine h.of_eq rfl rfl (Nat.le_of_eq ?_) hgoes.length_eq.symm
  exact countP_eq_of_forall₂ hgoes fun ghost ghost' hgo => by rw [scared_of_goes hgo]

theorem Balanced.afterPlayer (h : Balanced m k g) :
    Balanced m (k + scaredContacts g.elapse.movePlayer.player g.elapse.movePlayer.ghosts)
      g.afterPlayer :=
  h.elapse.movePlayer.resolve

theorem Balanced.step (h : Balanced m k g) : Balanced m (k + g.contactsBy .step) g.step := by
  have hcourse := course_step g
  rw [contactsBy]
  generalize g.moments = moments, g.step = g' at hcourse ⊢
  cases hcourse with
  | ended => exact h
  | caught => exact h.afterPlayer
  | won => exact h.afterPlayer.of_eq rfl rfl (Nat.le_refl _) rfl
  | played =>
    have hplayed := h.afterPlayer.moveGhosts.resolve
    rw [Nat.add_assoc] at hplayed
    exact hplayed

theorem Balanced.of_mem_moments (h : Balanced m k g) (hmem : before ∈ g.moments) :
    ∃ k', Balanced m k' before := by
  have hcourse := course_step g
  generalize g.moments = moments, g.step = g' at hcourse hmem
  cases hcourse with
  | ended => cases hmem
  | caught | won =>
    obtain rfl := List.mem_singleton.mp hmem
    exact ⟨k, h.elapse.movePlayer⟩
  | played =>
    rcases List.mem_cons.mp hmem with rfl | hmem
    · exact ⟨k, h.elapse.movePlayer⟩
    · obtain rfl := List.mem_singleton.mp hmem
      exact ⟨_, h.afterPlayer.moveGhosts⟩

theorem Balanced.perform (h : Balanced m k g) {call : Call} (hgame : g.restarts call = false) :
    Balanced m (k + g.contactsBy call) (g.perform call) := by
  cases call with
  | press key =>
    rcases press_cases g key with ⟨dir, heq⟩ | ⟨hrestarts, -⟩
    · rw [Pacman.perform, heq]
      exact h.of_eq rfl rfl (Nat.le_refl _) rfl
    · rw [hgame] at hrestarts
      cases hrestarts
  | step => exact h.step

theorem Balanced.run (h : Balanced m k g) {calls : List Call} (hgame : g.sameGame calls = true) :
    Balanced m (k + g.contactsAlong calls) (g.run calls) := by
  induction calls generalizing g k with
  | nil => exact h
  | cons call calls ih =>
    rw [sameGame, Bool.and_eq_true, Bool.not_eq_true'] at hgame
    obtain ⟨hfirst, hrest⟩ := hgame
    have hlast := ih (h.perform hfirst) hrest
    rw [Nat.add_assoc] at hlast
    exact hlast

theorem balanced_create (seed : Option UInt64) (free : Stream) :
    Balanced (create seed free).maze 0 (create seed free) := by
  obtain ⟨-, -, hghosts⟩ := create_parts seed free
  have hscore : (create seed free).score = 0 := by
    unfold create
    obtain ⟨maze, stream⟩ := Maze.generate (.ofSeed? seed free)
    rfl
  refine ⟨fun p => .inl rfl, ?_, ?_, by rw [hghosts]; rfl⟩
  · rw [hscore, Maze.gone_self, Maze.gone_self]
  · rw [Maze.gone_self, hghosts]
    decide

/-- What can be had from a maze: pellets on fewer than 315 cells, four power pellets, and three
ghosts for each of these. -/
theorem Balanced.score_le (h : Balanced m k g) (hm : m.Winnable) : g.score ≤ 5750 := by
  have hscore := h.score
  have hreserve := h.reserve
  have hpellets := m.gone_le .pellet g.maze
  have hpowers := hm.gone_power_le g.maze
  omega

/-- In a game, whatever keys and steps it has had, the score is ten for each pellet gone, fifty for
each power pellet gone and two hundred for each scared ghost met, of which there are at most three
for each power pellet. So it is bounded, and no sum that a further step computes outgrows a word. -/
theorem run_score (seed : Option UInt64) (free : Stream) (calls : List Call)
    (hgame : (create seed free).sameGame calls = true) :
    let start := create seed free
    let g := start.run calls
    let p := start.maze.gone .pellet g.maze
    let q := start.maze.gone .power g.maze
    let k := start.contactsAlong calls
    g.score = 10 * p + 50 * q + 200 * k ∧ k ≤ 3 * q ∧ g.score ≤ 5750 ∧
      ∀ before ∈ g.moments, ∀ n ≤ scaredContacts before.player before.ghosts,
        before.score + n * ghostPoints < UInt32.size := by
  intro start g p q k
  have hwinnable := winnable_create seed free
  have hbalanced : Balanced start.maze k g := by
    have hrun := (balanced_create seed free).run hgame
    rwa [Nat.zero_add] at hrun
  have hreserve := hbalanced.reserve
  refine ⟨hbalanced.score, by omega, hbalanced.score_le hwinnable, fun before hmem n hn => ?_⟩
  obtain ⟨k', hbefore⟩ := hbalanced.of_mem_moments hmem
  have hle := hbefore.resolve.score_le hwinnable
  rw [resolve_eq, eaten_contacts] at hle
  calc before.score + n * ghostPoints
      ≤ before.score + scaredContacts before.player before.ghosts * ghostPoints :=
        Nat.add_le_add_left (Nat.mul_le_mul_right _ hn) _
    _ ≤ 5750 := hle
    _ < UInt32.size := by decide

/-- A turn and two steps of a new game. -/
theorem run_score_two_steps :
    (create (some 1) default).sameGame [.press .arrowLeft, .step, .step] = true ∧
      ((create (some 1) default).run [.press .arrowLeft, .step, .step]).score ≤ 5750 := by
  have hgame : (create (some 1) default).sameGame [.press .arrowLeft, .step, .step] = true := by
    simp [sameGame, restarts, Key.lowerChar]
  exact ⟨hgame, (run_score (some 1) default _ hgame).2.2.1⟩

end Pacman
end PocketTerminal.Arcade
