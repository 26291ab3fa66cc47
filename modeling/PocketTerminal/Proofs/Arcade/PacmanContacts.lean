import PocketTerminal.Proofs.Arcade.PacmanRuns

/-! # Contacts

A step settles twice who is in the player's cell: after his move and after the ghosts' moves. The
second time, a scared ghost that is eaten in the cell of its own home stays there, and calm. -/
namespace PocketTerminal.Arcade.Pacman

variable {g g' : Pacman} {player : Cell} {ghost : Ghost} {ghosts : List Ghost}

def afterPlayer (g : Pacman) : Pacman := g.elapse.movePlayer.resolve

/-- The games of a step in which contacts are about to be settled, and what the step comes to. -/
inductive Course (g : Pacman) : List Pacman → Pacman → Prop
  | ended : g.outcome ≠ .playing → Course g [] g
  | caught : g.outcome = .playing → g.afterPlayer.outcome ≠ .playing →
      Course g [g.elapse.movePlayer] g.afterPlayer
  | won : g.outcome = .playing → g.afterPlayer.outcome = .playing →
      g.afterPlayer.maze.pelletsLeft = 0 →
      Course g [g.elapse.movePlayer] { g.afterPlayer with outcome := .won }
  | played : g.outcome = .playing → g.afterPlayer.outcome = .playing →
      g.afterPlayer.maze.pelletsLeft ≠ 0 →
      Course g [g.elapse.movePlayer, g.afterPlayer.moveGhosts] g.afterPlayer.moveGhosts.resolve

def moments (g : Pacman) : List Pacman :=
  if g.outcome != .playing then []
  else if g.afterPlayer.outcome != .playing then [g.elapse.movePlayer]
  else if g.afterPlayer.maze.pelletsLeft = 0 then [g.elapse.movePlayer]
  else [g.elapse.movePlayer, g.afterPlayer.moveGhosts]

theorem step_eq (g : Pacman) : g.step =
    if g.outcome != .playing then g
    else if g.afterPlayer.outcome != .playing then g.afterPlayer
    else if g.afterPlayer.maze.pelletsLeft = 0 then { g.afterPlayer with outcome := .won }
    else g.afterPlayer.moveGhosts.resolve := rfl

theorem course_step (g : Pacman) : g.Course g.moments g.step := by
  rw [step_eq, moments]
  split
  · next hover => exact .ended (bne_iff_ne.mp hover)
  · next hplaying =>
    rw [bne_iff_ne, not_not] at hplaying
    split
    · next hcaught => exact .caught hplaying (bne_iff_ne.mp hcaught)
    · next hfree =>
      rw [bne_iff_ne, not_not] at hfree
      split
      · next hnone => exact .won hplaying hfree hnone
      · next hsome => exact .played hplaying hfree hsome

/-- A step after which the game goes on has been played to its end. -/
theorem step_of_playing (hplaying : g.step.outcome = .playing) :
    g.step = g.afterPlayer.moveGhosts.resolve := by
  have hcourse := course_step g
  generalize g.moments = moments, hstep : g.step = g' at hcourse hplaying
  cases hcourse with
  | ended hover => exact absurd hplaying hover
  | caught _ hcaught => exact absurd hplaying hcaught
  | won => cases hplaying
  | played => rfl

theorem contacts_of_away (haway : ghost.pos ≠ player) : contacts player (ghost :: ghosts) =
    (ghost :: (contacts player ghosts).1, (contacts player ghosts).2) := by
  rw [contacts, if_pos (bne_iff_ne.mpr haway)]

theorem contacts_of_scared (hpos : ghost.pos = player) (hscared : 0 < ghost.scared) :
    contacts player (ghost :: ghosts) =
      (ghost.sentHome :: (contacts player ghosts).1, (contacts player ghosts).2.1 + 1,
        (contacts player ghosts).2.2) := by
  rw [contacts, if_neg (by simp [hpos]), if_pos hscared]

theorem contacts_of_calm (hpos : ghost.pos = player) (hcalm : ghost.scared = 0) :
    contacts player (ghost :: ghosts) = (ghost :: ghosts, 0, true) := by
  rw [contacts, if_neg (by simp [hpos]), if_neg (by simp [hcalm])]

def Ghost.settled (player : Cell) (ghost : Ghost) : Ghost :=
  if ghost.pos = player then ghost.sentHome else ghost

theorem contacts_of_free (hfree : (contacts player ghosts).2.2 = false) :
    (contacts player ghosts).1 = ghosts.map (Ghost.settled player) ∧
      ∀ ghost ∈ ghosts, ghost.pos = player → 0 < ghost.scared := by
  induction ghosts with
  | nil => exact ⟨rfl, List.forall_mem_nil _⟩
  | cons ghost rest ih =>
    rw [List.map_cons, List.forall_mem_cons, Ghost.settled]
    by_cases hpos : ghost.pos = player
    · rcases Nat.eq_zero_or_pos ghost.scared with hcalm | hscared
      · rw [contacts_of_calm hpos hcalm] at hfree
        cases hfree
      · rw [contacts_of_scared hpos hscared] at hfree ⊢
        obtain ⟨hsettled, hrest⟩ := ih hfree
        exact ⟨by rw [hsettled, if_pos hpos], fun _ => hscared, hrest⟩
    · rw [contacts_of_away hpos] at hfree ⊢
      obtain ⟨hsettled, hrest⟩ := ih hfree
      exact ⟨by rw [hsettled, if_neg hpos], fun he => absurd he hpos, hrest⟩

theorem caught_eq_false (hplaying : g.resolve.outcome = .playing) :
    (contacts g.player g.ghosts).2.2 = false := by
  rw [← Bool.not_eq_true]
  intro hcaught
  rw [resolve_eq, if_pos hcaught] at hplaying
  cases hplaying

/-- Where the game goes on, a calm ghost in the player's cell has just been eaten and sent there. -/
theorem eaten_of_calm (hplaying : g.resolve.outcome = .playing) (hmem : ghost ∈ g.resolve.ghosts)
    (hpos : ghost.pos = g.player) (hcalm : ghost.scared = 0) :
    ∃ eaten ∈ g.ghosts, eaten.pos = g.player ∧ 0 < eaten.scared ∧ ghost = eaten.sentHome := by
  obtain ⟨hsettled, hscared⟩ := contacts_of_free (caught_eq_false hplaying)
  rw [resolve_eq] at hmem
  dsimp only at hmem
  rw [hsettled] at hmem
  obtain ⟨before, hbefore, rfl⟩ := List.mem_map.mp hmem
  by_cases hmet : before.pos = g.player
  · exact ⟨before, hbefore, hmet, hscared before hbefore hmet, if_pos hmet⟩
  · rw [Ghost.settled, if_neg hmet] at hpos
    exact absurd hpos hmet

def Contested (g : Pacman) : Prop := ∃ ghost ∈ g.ghosts, ghost.pos = g.player ∧ ghost.scared = 0

/-- Settling contacts leaves one exactly where it makes one: a ghost is eaten at home. -/
theorem contested_resolve_iff (hplaying : g.resolve.outcome = .playing) :
    g.resolve.Contested ↔
      ∃ eaten ∈ g.ghosts, eaten.pos = g.player ∧ 0 < eaten.scared ∧ eaten.home = g.player := by
  have hplayer : g.resolve.player = g.player := by rw [resolve_eq]
  rw [Contested, hplayer]
  constructor
  · rintro ⟨ghost, hmem, hpos, hcalm⟩
    obtain ⟨eaten, heaten, hmet, hscared, rfl⟩ := eaten_of_calm hplaying hmem hpos hcalm
    exact ⟨eaten, heaten, hmet, hscared, hpos⟩
  · rintro ⟨eaten, heaten, hmet, -, hhome⟩
    obtain ⟨hsettled, -⟩ := contacts_of_free (caught_eq_false hplaying)
    refine ⟨eaten.sentHome, ?_, hhome, rfl⟩
    rw [resolve_eq]
    dsimp only
    rw [hsettled]
    exact List.mem_map.mpr ⟨eaten, heaten, if_pos hmet⟩

theorem Ghost.Stepped.home_eq {m : Maze} {ghost' : Ghost} (h : ghost.Stepped m ghost') :
    ghost'.home = ghost.home := by
  cases h <;> rfl

/-- After a step that leaves the game going a calm ghost shares the player's cell exactly where a
scared one has moved into it and has its home there. So none does on any cell that is no ghost's
home. Games that can come up have player, ghosts and homes on open cells. -/
theorem step_uncontested (g : Pacman) (hplaying : g.step.outcome = .playing) :
    (g.step.Contested ↔ ∃ eaten ∈ g.afterPlayer.moveGhosts.ghosts,
      eaten.pos = g.step.player ∧ 0 < eaten.scared ∧ eaten.home = g.step.player) ∧
    ((∀ ghost ∈ g.ghosts, ghost.home ≠ g.step.player) →
      ∀ ghost ∈ g.step.ghosts, ghost.pos = g.step.player → 0 < ghost.scared) ∧
    ∀ seed free calls, g = (create seed free).run calls → g.Orderly := by
  have hstep := step_of_playing hplaying
  have hresolved : g.afterPlayer.moveGhosts.resolve.outcome = .playing := hstep ▸ hplaying
  have hplayer : g.step.player = g.afterPlayer.moveGhosts.player := by rw [hstep, resolve_eq]
  refine ⟨?_, fun hhomes ghost hmem hpos => Nat.pos_of_ne_zero fun hcalm => ?_, ?_⟩
  · rw [hplayer, hstep]
    exact contested_resolve_iff hresolved
  · obtain ⟨before, hbefore, hstepped⟩ := exists_of_mem_right (stepped_step g).ghosts hmem
    rw [hstep] at hmem
    obtain ⟨eaten, -, -, -, rfl⟩ := eaten_of_calm hresolved hmem (hpos.trans hplayer) hcalm
    exact hhomes before hbefore (hstepped.home_eq.symm.trans hpos)
  · rintro seed free calls rfl
    exact (orderly_create seed free).run calls

/-- A game in which a scared ghost is about to move into the player's cell, its home. -/
def homecoming : Pacman :=
  { seed := none
    stream := default
    maze := Maze.lattice
    player := (10, 7)
    ghosts :=
      [{ pos := (1, 1), home := (9, 7), style := .chase },
       { pos := (10, 8), home := (10, 7), style := .ambush, scared := 5 },
       { pos := (19, 1), home := (11, 7), style := .random }] }

theorem homecoming_step :
    homecoming.step.outcome = .playing ∧ homecoming.step.player = (10, 7) ∧
      { pos := (10, 7), home := (10, 7), style := .ambush } ∈ homecoming.step.ghosts := by
  decide +kernel

/-- The calm ghost in the player's cell is one that was eaten there, at home. -/
theorem step_uncontested_homecoming :
    homecoming.step.outcome = .playing ∧ ∃ eaten ∈ homecoming.afterPlayer.moveGhosts.ghosts,
      eaten.pos = homecoming.step.player ∧ 0 < eaten.scared ∧
        eaten.home = homecoming.step.player := by
  obtain ⟨hplaying, hplayer, hmem⟩ := homecoming_step
  exact ⟨hplaying, (step_uncontested homecoming hplaying).1.mp ⟨_, hmem, hplayer.symm, rfl⟩⟩

/-- Player, ghosts and homes are on open cells and the game goes on, yet a calm ghost stands in the
player's cell. -/
theorem homecoming_contested :
    (homecoming.maze.isWall homecoming.player = false ∧ ∀ ghost ∈ homecoming.ghosts,
      homecoming.maze.isWall ghost.pos = false ∧ homecoming.maze.isWall ghost.home = false) ∧
    homecoming.step.outcome = .playing ∧
      ∃ ghost ∈ homecoming.step.ghosts, ghost.pos = homecoming.step.player ∧ ghost.scared = 0 := by
  obtain ⟨hplaying, hplayer, hmem⟩ := homecoming_step
  refine ⟨?_, hplaying, _, hmem, hplayer.symm, rfl⟩
  simp only [homecoming, Maze.open_lattice_iff]
  decide

end PocketTerminal.Arcade.Pacman
