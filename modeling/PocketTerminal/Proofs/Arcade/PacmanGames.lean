import PocketTerminal.Proofs.Arcade.Ghosts
import PocketTerminal.Proofs.Arcade.WinnableMazes

/-! # Games among ghosts

What a step makes of a game, and from it what holds of every game after any keys and steps: the
walls stay, nobody is in one, and what is left to eat only gets less. -/
namespace PocketTerminal.Arcade.Pacman

open Chance (Stream)

variable {g g' : Pacman} {ghost ghost' ghost'' : Ghost} {m : Maze} {p : Cell}

/-- A ghost and what one step of a game makes of it. -/
inductive Ghost.Stepped (m : Maze) (ghost : Ghost) : Ghost → Prop
  | stays (n : Nat) : n ≤ max ghost.scared scaredSteps → Stepped m ghost { ghost with scared := n }
  | goes (d : Direction) (n : Nat) : ghost.MayGo m d → n ≤ max ghost.scared scaredSteps →
      Stepped m ghost { ghost.gone d with scared := n }
  | eaten : Stepped m ghost ghost.sentHome
  | eatenGoes (d : Direction) : ghost.sentHome.MayGo m d →
      Stepped m ghost (ghost.sentHome.gone d)

/-- A ghost and what it is before the ghosts move: it may be scared, calmed, or eaten. -/
inductive Ghost.Waits (ghost : Ghost) : Ghost → Prop
  | stays (n : Nat) : n ≤ max ghost.scared scaredSteps → Waits ghost { ghost with scared := n }
  | eaten : Waits ghost ghost.sentHome

theorem waits_refl (ghosts : List Ghost) : List.Forall₂ Ghost.Waits ghosts ghosts :=
  List.forall₂_same.mpr fun ghost _ => .stays ghost.scared (Nat.le_max_left _ _)

theorem Ghost.Waits.meets (h : ghost.Waits ghost') (hmeets : ghost'.Meets ghost'') :
    ghost.Waits ghost'' := by
  cases hmeets with
  | spared => exact h
  | eaten => cases h <;> exact .eaten

theorem Ghost.Waits.stepped (h : ghost.Waits ghost') : ghost.Stepped m ghost' := by
  cases h with
  | stays n hn => exact .stays n hn
  | eaten => exact .eaten

theorem Ghost.Waits.goes (h : ghost.Waits ghost') (hgoes : ghost'.Goes m ghost'') :
    ghost.Stepped m ghost'' := by
  cases hgoes with
  | stays => exact h.stepped
  | goes d hmay =>
    cases h with
    | stays n hn => exact .goes d n ⟨hmay.isOpen, hmay.onward⟩ hn
    | eaten => exact .eatenGoes d hmay

theorem Ghost.Stepped.meets (h : ghost.Stepped m ghost') (hmeets : ghost'.Meets ghost'') :
    ghost.Stepped m ghost'' := by
  cases hmeets with
  | spared => exact h
  | eaten => cases h <;> exact .eaten

theorem Ghost.Goes.congr {m' : Maze} (h : ghost.Goes m ghost')
    (hwalls : ∀ p, m.isWall p = m'.isWall p) : ghost.Goes m' ghost' := by
  cases h with
  | stays => exact .stays
  | goes d hmay =>
    refine .goes d ⟨(hwalls _).symm.trans hmay.isOpen, fun hback e he => ?_⟩
    exact hmay.onward hback e ((hwalls _).trans he)

structure Ghost.Fit (m : Maze) (ghost : Ghost) : Prop where
  isOpen : m.isWall ghost.pos = false
  home_isOpen : m.isWall ghost.home = false
  scared_le : ghost.scared ≤ scaredSteps

theorem Ghost.Fit.stepped (h : ghost.Fit m) (hstepped : ghost.Stepped m ghost') : ghost'.Fit m := by
  have hscared : max ghost.scared scaredSteps ≤ scaredSteps :=
    Nat.max_le.mpr ⟨h.scared_le, Nat.le_refl _⟩
  cases hstepped with
  | stays n hn => exact ⟨h.isOpen, h.home_isOpen, Nat.le_trans hn hscared⟩
  | goes d n hmay hn => exact ⟨hmay.isOpen, h.home_isOpen, Nat.le_trans hn hscared⟩
  | eaten => exact ⟨h.home_isOpen, h.home_isOpen, Nat.zero_le _⟩
  | eatenGoes d hmay => exact ⟨hmay.isOpen, h.home_isOpen, Nat.zero_le _⟩

theorem isWall_eat (g : Pacman) (p : Cell) : g.eat.maze.isWall p = g.maze.isWall p := by
  have hset : g.maze.isWall g.player = false →
      (g.maze.set g.player .empty).isWall p = g.maze.isWall p := by
    intro hopen
    rw [Maze.isWall_set (Maze.onGrid_of_open hopen)]
    split
    · next he =>
      rw [he, hopen]
      rfl
    · rfl
  unfold eat
  split
  · next hget => exact hset (by rw [Maze.isWall, hget]; rfl)
  · next hget => exact hset (by rw [Maze.isWall, hget]; rfl)
  · rfl
  · rfl

theorem pelletsLeft_eat_le (g : Pacman) : g.eat.maze.pelletsLeft ≤ g.maze.pelletsLeft := by
  unfold eat
  split
  · exact Maze.pelletsLeft_set_le rfl
  · exact Maze.pelletsLeft_set_le rfl
  · exact Nat.le_refl _
  · exact Nat.le_refl _

theorem player_eat (g : Pacman) : g.eat.player = g.player := by
  unfold eat
  split <;> rfl

theorem waits_eat (g : Pacman) : List.Forall₂ Ghost.Waits g.ghosts g.eat.ghosts := by
  unfold eat
  split
  · exact waits_refl g.ghosts
  · refine List.forall₂_map_right_iff.mpr (List.forall₂_same.mpr fun ghost _ => ?_)
    exact .stays scaredSteps (Nat.le_max_right _ _)
  · exact waits_refl g.ghosts
  · exact waits_refl g.ghosts

theorem movePlayer_cases (g : Pacman) :
    (∃ dir, g.movePlayer = { g with dir := dir }) ∨
      ∃ d, g.maze.isWall (shift g.player d) = false ∧
        g.movePlayer = { g with dir := some d, player := shift g.player d }.eat := by
  unfold movePlayer
  dsimp only
  cases g.heading with
  | none => exact .inl ⟨none, rfl⟩
  | some d =>
    dsimp only
    by_cases hwall : g.maze.isWall (shift g.player d) = true
    · exact .inl ⟨some d, if_pos hwall⟩
    · exact .inr ⟨d, eq_false_of_ne_true hwall, if_neg hwall⟩

theorem resolve_eq (g : Pacman) : g.resolve =
    { g with
      ghosts := (contacts g.player g.ghosts).1
      score := g.score + (contacts g.player g.ghosts).2.1 * ghostPoints
      outcome := if (contacts g.player g.ghosts).2.2 then .caught else g.outcome } := by
  unfold resolve
  obtain ⟨ghosts, eaten, caught⟩ := contacts g.player g.ghosts
  rfl

theorem moveGhosts_eq (g : Pacman) : g.moveGhosts =
    { g with
      ghosts := (g.moveEach g.ghosts g.stream).1
      stream := (g.moveEach g.ghosts g.stream).2 } := by
  unfold moveGhosts
  obtain ⟨ghosts, stream⟩ := g.moveEach g.ghosts g.stream
  rfl

/-- What any part of a step keeps of a game. -/
structure Continues (g g' : Pacman) : Prop where
  walls : ∀ p, g'.maze.isWall p = g.maze.isWall p
  pellets : g'.maze.pelletsLeft ≤ g.maze.pelletsLeft
  near : distance g.player g'.player ≤ 1
  isOpen : g.maze.isWall g.player = false → g'.maze.isWall g'.player = false

structure Readied (g g' : Pacman) : Prop extends Continues g g' where
  ghosts : List.Forall₂ Ghost.Waits g.ghosts g'.ghosts

structure Stepped (g g' : Pacman) : Prop extends Continues g g' where
  ghosts : List.Forall₂ (Ghost.Stepped g.maze) g.ghosts g'.ghosts
  /-- A game in which there is nothing left to eat does not go on. -/
  playing : g'.outcome = .playing → 0 < g'.maze.pelletsLeft

theorem Continues.refl (g : Pacman) : g.Continues g :=
  ⟨fun _ => rfl, Nat.le_refl _, by simp [distance], id⟩

theorem Continues.of_eq (h : g.Continues g') {g'' : Pacman} (hmaze : g''.maze = g'.maze)
    (hplayer : g''.player = g'.player) : g.Continues g'' := by
  constructor
  · rw [hmaze]
    exact h.walls
  · rw [hmaze]
    exact h.pellets
  · rw [hplayer]
    exact h.near
  · rw [hmaze, hplayer]
    exact h.isOpen

theorem continues_movePlayer (g : Pacman) : g.Continues g.movePlayer := by
  rcases movePlayer_cases g with ⟨dir, heq⟩ | ⟨d, hopen, heq⟩
  · rw [heq]
    exact (Continues.refl g).of_eq rfl rfl
  · rw [heq]
    constructor
    · exact isWall_eat _
    · exact pelletsLeft_eat_le _
    · rw [player_eat]
      exact Nat.le_of_eq (distance_shift g.player d)
    · intro _
      rw [player_eat, isWall_eat]
      exact hopen

theorem waits_movePlayer (g : Pacman) : List.Forall₂ Ghost.Waits g.ghosts g.movePlayer.ghosts := by
  rcases movePlayer_cases g with ⟨dir, heq⟩ | ⟨d, -, heq⟩
  · rw [heq]
    exact waits_refl g.ghosts
  · rw [heq]
    exact waits_eat { g with dir := some d, player := shift g.player d }

theorem readied_resolve (g : Pacman) : g.Readied g.elapse.movePlayer.resolve := by
  have helapse : List.Forall₂ (fun ghost ghost' : Ghost =>
      ghost' = { ghost with scared := ghost.scared - 1 }) g.ghosts g.elapse.ghosts :=
    List.forall₂_map_right_iff.mpr (List.forall₂_same.mpr fun _ _ => rfl)
  have hwaits : List.Forall₂ Ghost.Waits g.ghosts g.elapse.movePlayer.ghosts := by
    refine forall₂_trans helapse (waits_movePlayer g.elapse) ?_
    rintro ghost _ _ rfl hwaits
    cases hwaits with
    | stays n hn => exact .stays n (by dsimp only at hn; omega)
    | eaten => exact .eaten
  have hcontinues : g.Continues g.elapse.movePlayer := by
    have hmoved := continues_movePlayer g.elapse
    exact ⟨hmoved.walls, hmoved.pellets, hmoved.near, hmoved.isOpen⟩
  rw [resolve_eq]
  refine { toContinues := hcontinues.of_eq rfl rfl, ghosts := ?_ }
  exact forall₂_trans hwaits (meets_contacts _ _) fun _ _ _ h hmeets => h.meets hmeets

theorem Readied.stepped (h : g.Readied g') (hover : g'.outcome ≠ .playing) : g.Stepped g' :=
  { toContinues := h.toContinues
    ghosts := h.ghosts.imp fun _ _ hwaits => hwaits.stepped
    playing := fun hplaying => absurd hplaying hover }

theorem Readied.moveGhosts_resolve (h : g.Readied g') (hleft : 0 < g'.maze.pelletsLeft) :
    g.Stepped g'.moveGhosts.resolve := by
  have hmoved : List.Forall₂ (Ghost.Stepped g.maze) g.ghosts (g'.moveEach g'.ghosts g'.stream).1 :=
    forall₂_trans h.ghosts (goes_moveEach g' _ _) fun _ _ _ hwaits hgoes =>
      hwaits.goes (hgoes.congr h.walls)
  rw [resolve_eq, moveGhosts_eq]
  refine { toContinues := h.toContinues.of_eq rfl rfl, ghosts := ?_, playing := fun _ => hleft }
  exact forall₂_trans hmoved (meets_contacts _ _) fun _ _ _ hstepped hmeets => hstepped.meets hmeets

theorem stepped_step (g : Pacman) : g.Stepped g.step := by
  have hready := readied_resolve g
  unfold step
  generalize g.elapse.movePlayer.resolve = g' at hready ⊢
  dsimp only
  split
  · next hover =>
    have hsame : g.Readied g := { toContinues := Continues.refl g, ghosts := waits_refl g.ghosts }
    exact hsame.stepped (bne_iff_ne.mp hover)
  · split
    · next hover => exact hready.stepped (bne_iff_ne.mp hover)
    · split
      · have hwon : g.Readied { g' with outcome := .won } :=
          { toContinues := hready.toContinues.of_eq rfl rfl, ghosts := hready.ghosts }
        exact hwon.stepped nofun
      · next hleft => exact hready.moveGhosts_resolve (Nat.pos_of_ne_zero hleft)

/-- A game in which nobody is in a wall. -/
structure Orderly (g : Pacman) : Prop where
  border : ∀ p, Maze.isBorder p = true → g.maze.isWall p = true
  player : g.maze.isWall g.player = false
  three : g.ghosts.length = 3
  ghosts : ∀ ghost ∈ g.ghosts, ghost.Fit g.maze

theorem Orderly.step (h : g.Orderly) : g.step.Orderly := by
  have hstepped := stepped_step g
  constructor
  · intro p hp
    rw [hstepped.walls]
    exact h.border p hp
  · exact hstepped.isOpen h.player
  · exact hstepped.ghosts.length_eq.symm.trans h.three
  · intro ghost' hmem
    obtain ⟨ghost, hghost, hstep⟩ := exists_of_mem_right hstepped.ghosts hmem
    have hfit := (h.ghosts ghost hghost).stepped hstep
    refine ⟨?_, ?_, hfit.scared_le⟩
    · rw [hstepped.walls]
      exact hfit.isOpen
    · rw [hstepped.walls]
      exact hfit.home_isOpen

theorem create_parts (seed : Option UInt64) (free : Stream) :
    (create seed free).maze = (Maze.generate (.ofSeed? seed free)).1 ∧
      (create seed free).player = Maze.playerStart ∧ (create seed free).ghosts = newGhosts := by
  unfold create
  obtain ⟨maze, stream⟩ := Maze.generate (.ofSeed? seed free)
  exact ⟨rfl, rfl, rfl⟩

theorem winnable_create (seed : Option UInt64) (free : Stream) : (create seed free).maze.Winnable := by
  obtain ⟨extra, hlength, hsketch⟩ := Maze.sketch_lattice.tryWalls 40 (.ofSeed? seed free)
  rw [(create_parts seed free).1, Maze.generate_fst]
  exact hsketch.winnable (by simpa using hlength)

theorem orderly_create (seed : Option UInt64) (free : Stream) : (create seed free).Orderly := by
  obtain ⟨-, hplayer, hghosts⟩ := create_parts seed free
  have hwinnable := winnable_create seed free
  have hnew : ∀ ghost ∈ newGhosts, ghost.pos ∈ Maze.ghostHomes ∧ ghost.home ∈ Maze.ghostHomes ∧
      ghost.scared = 0 := by decide
  constructor
  · exact hwinnable.border
  · rw [hplayer, Maze.isWall, hwinnable.start]
    rfl
  · rw [hghosts]
    rfl
  · intro ghost hmem
    rw [hghosts] at hmem
    obtain ⟨hpos, hhome, hscared⟩ := hnew ghost hmem
    exact ⟨hwinnable.homes _ hpos, hwinnable.homes _ hhome, hscared ▸ Nat.zero_le _⟩

end PocketTerminal.Arcade.Pacman
