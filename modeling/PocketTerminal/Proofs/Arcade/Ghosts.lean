import PocketTerminal.Arcade.Pacman
import PocketTerminal.Proofs.Arcade.Mazes
import PocketTerminal.Proofs.Lists

/-! # Ghosts

Where a ghost can be after its move and after it met the player. No ghost enters a wall, and
none turns back where there is another way, whatever it aims at and whatever the stream says. -/
namespace PocketTerminal.Arcade

open Chance (Stream)

variable {m m' : Maze} {p : Cell} {d : Direction} {dir : Option Direction}

theorem Maze.mem_exits (h : d ∈ m.exits p dir) : m.isWall (shift p d) = false ∧
    (dir = some d.opposite → ∀ e, m.isWall (shift p e) = false → e = d) := by
  have hways : ∀ e, e ∈ Direction.all.filter (fun d => !m.isWall (shift p d)) ↔
      m.isWall (shift p e) = false := by
    intro e
    rw [List.mem_filter, Bool.not_eq_true']
    exact and_iff_right (Direction.mem_all e)
  unfold Maze.exits at h
  dsimp only at h
  split at h
  · next hnone =>
    refine ⟨(hways d).mp h, fun hback e he => ?_⟩
    -- No way leads forward, so this one leads back as well.
    have hforward := List.filter_eq_nil_iff.mp (List.isEmpty_iff.mp hnone) e ((hways e).mpr he)
    rw [bne_iff_ne, not_not, hback, Option.some.injEq] at hforward
    exact (Direction.opposite_eq_iff.mp hforward).trans (Direction.opposite_opposite d)
  · obtain ⟨hway, hforward⟩ := List.mem_filter.mp h
    refine ⟨(hways d).mp hway, fun hback => ?_⟩
    rw [bne_iff_ne] at hforward
    exact absurd hback.symm hforward

namespace Pacman

variable {g : Pacman} {ghost ghost' : Ghost} {ways : List Direction} {measure : Direction → Nat}

theorem firstLeast_mem (h : firstLeast measure ways = some d) : d ∈ ways := by
  induction ways generalizing d with
  | nil => cases h
  | cons e rest ih =>
    unfold firstLeast at h
    split at h
    · next f hf =>
      split at h
      · exact List.mem_cons_of_mem e (ih (hf.trans h))
      · cases h
        exact List.mem_cons_self
    · cases h
      exact List.mem_cons_self

theorem lastGreatest_mem (h : lastGreatest measure ways = some d) : d ∈ ways := by
  induction ways generalizing d with
  | nil => cases h
  | cons e rest ih =>
    unfold lastGreatest at h
    split at h
    · next f hf =>
      split at h
      · cases h
        exact List.mem_cons_self
      · exact List.mem_cons_of_mem e (ih (hf.trans h))
    · cases h
      exact List.mem_cons_self

theorem chooseWay_mem {target : Cell} {s : Stream} (h : (chooseWay ghost ways target s).1 = some d) :
    d ∈ ways := by
  unfold chooseWay at h
  obtain ⟨astray, s⟩ := s.chance whim
  dsimp only at h
  split at h
  · exact List.mem_of_getElem? h
  · dsimp only at h
    split at h
    · exact lastGreatest_mem h
    · exact firstLeast_mem h

/-- No wall is in the way, and it does not lead back unless it is the only one. -/
structure Ghost.MayGo (m : Maze) (ghost : Ghost) (d : Direction) : Prop where
  isOpen : m.isWall (shift ghost.pos d) = false
  onward : ghost.dir = some d.opposite → ∀ e, m.isWall (shift ghost.pos e) = false → e = d

def Ghost.gone (ghost : Ghost) (d : Direction) : Ghost :=
  { ghost with pos := shift ghost.pos d, dir := some d }

/-- A ghost and what it is after a move of its own. -/
inductive Ghost.Goes (m : Maze) (ghost : Ghost) : Ghost → Prop
  | stays : Goes m ghost ghost
  | goes (d : Direction) : ghost.MayGo m d → Goes m ghost (ghost.gone d)

theorem goes_moveGhost (g : Pacman) (ghost : Ghost) (s : Stream) :
    ghost.Goes g.maze (g.moveGhost ghost s).1 := by
  unfold moveGhost
  obtain ⟨target, s⟩ := g.aim ghost s
  dsimp only
  split
  · exact .stays
  · split
    · next d _ hchoice =>
      have hmem := chooseWay_mem (congrArg Prod.fst hchoice)
      obtain ⟨hopen, honward⟩ := Maze.mem_exits hmem
      exact .goes d ⟨hopen, honward⟩
    · exact .stays

theorem goes_moveEach (g : Pacman) (ghosts : List Ghost) (s : Stream) :
    List.Forall₂ (Ghost.Goes g.maze) ghosts (g.moveEach ghosts s).1 := by
  induction ghosts generalizing s with
  | nil => exact .nil
  | cons ghost rest ih =>
    have hmoved : ghost.Goes g.maze
        (if 0 < ghost.scared && g.steps % 2 == 0 then (ghost, s) else g.moveGhost ghost s).1 := by
      split
      · exact .stays
      · exact goes_moveGhost g ghost s
    unfold moveEach
    generalize (if 0 < ghost.scared && g.steps % 2 == 0 then (ghost, s)
      else g.moveGhost ghost s) = moved at hmoved ⊢
    obtain ⟨ghost', s⟩ := moved
    exact .cons hmoved (ih s)

inductive Ghost.Meets (ghost : Ghost) : Ghost → Prop
  | spared : Meets ghost ghost
  | eaten : Meets ghost ghost.sentHome

theorem meets_contacts (player : Cell) (ghosts : List Ghost) :
    List.Forall₂ Ghost.Meets ghosts (contacts player ghosts).1 := by
  have hspared : ∀ ghosts : List Ghost, List.Forall₂ Ghost.Meets ghosts ghosts :=
    fun ghosts => List.forall₂_same.mpr fun ghost _ => .spared
  induction ghosts with
  | nil => exact .nil
  | cons ghost rest ih =>
    unfold contacts
    split
    · exact .cons .spared ih
    · split
      · exact .cons .eaten ih
      · exact hspared _

end Pacman
end PocketTerminal.Arcade
