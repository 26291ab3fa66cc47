import PocketTerminal.Proofs.Arcade.Searches
import Mathlib.Data.List.Nodup

/-! # Winnable mazes

Whatever the stream, a generated maze has the walls of the lattice and few others, pellets where
they belong, and a way from the player to everything open. -/
namespace PocketTerminal.Arcade.Maze

open Chance (Stream)

variable {m : Maze} {p q : Cell} {extra : List Cell} {s : Stream}

theorem get_lattice (hp : OnGrid p) :
    lattice.get p = if isBorder p || isPillar p then .wall else .pellet := by
  obtain ⟨i, hi, hval⟩ := index?_of_onGrid hp
  have hcell : ((↑(i.val % 21), ↑(i.val / 21)) : Cell) = p := by
    obtain ⟨x, y⟩ := p
    simp only [OnGrid] at hp
    simp only [Prod.mk.injEq]
    omega
  have htile : lattice.tiles.get i =
      (fun c : Cell => if isBorder c || isPillar c then Tile.wall else .pellet)
        (↑(i.val % 21), ↑(i.val / 21)) := Vector.getElem_ofFn i.isLt
  rw [get_of_index? hi, htile, hcell]

theorem isWall_lattice_iff (hp : OnGrid p) :
    lattice.isWall p = true ↔ isBorder p = true ∨ isPillar p = true := by
  rw [isWall_iff, get_lattice hp, ← Bool.or_eq_true]
  split <;> simp_all

theorem get_lattice_of_open (h : lattice.isWall p = false) : lattice.get p = .pellet := by
  have hp := onGrid_of_open h
  rw [isWall_eq_false_iff] at h
  rw [get_lattice hp] at h ⊢
  split
  · next hwall => exact absurd (if_pos hwall) h
  · rfl

theorem open_lattice_iff : lattice.isWall p = false ↔
    1 ≤ p.1 ∧ p.1 ≤ 19 ∧ 1 ≤ p.2 ∧ p.2 ≤ 13 ∧
      ¬ (2 ≤ p.1 ∧ p.1 % 4 = 0 ∧ 2 ≤ p.2 ∧ (p.2 - 2) % 3 = 0) := by
  by_cases hp : OnGrid p
  · rw [← Bool.not_eq_true, isWall_lattice_iff hp]
    simp only [OnGrid] at hp
    simp only [isBorder, isPillar, Bool.or_eq_true, Bool.and_eq_true, beq_iff_eq, decide_eq_true_eq]
    omega
  · rw [isWall_of_not_onGrid hp]
    refine iff_of_false (by simp) fun h => hp ?_
    simp only [OnGrid]
    omega

/-- From every open cell but the corner there is an open one to the left or, beside a pillar and
in the first column, above. -/
theorem exists_nearer (h : lattice.isWall p = false) (hne : p ≠ (1, 1)) :
    ∃ d, lattice.isWall (shift p d) = false ∧
      (shift p d).1 + (shift p d).2 < p.1 + p.2 := by
  obtain ⟨x, y⟩ := p
  simp only [ne_eq, Prod.mk.injEq] at hne
  by_cases hleft : lattice.isWall (shift (x, y) .left) = false
  · refine ⟨.left, hleft, ?_⟩
    simp only [shift, Direction.delta]
    omega
  · refine ⟨.up, ?_, ?_⟩
    · rw [open_lattice_iff] at h hleft ⊢
      simp only [shift, Direction.delta] at h hleft ⊢
      omega
    · simp only [shift, Direction.delta]
      omega

theorem joined_corner_lattice (h : lattice.isWall p = false) : lattice.Joined p (1, 1) := by
  -- The way goes left and up, so the sum of the coordinates falls.
  induction hk : (p.1 + p.2).toNat using Nat.strongRecOn generalizing p with
  | ind k ih =>
    by_cases he : p = (1, 1)
    · rw [he]
    · obtain ⟨d, hopen, hless⟩ := exists_nearer h he
      have hpos := open_lattice_iff.mp h
      have hrest := ih _ (by omega) hopen rfl
      exact .head ⟨h, hopen, distance_shift p d⟩ hrest

theorem joined_lattice (hp : lattice.isWall p = false) (hq : lattice.isWall q = false) :
    lattice.Joined p q :=
  (joined_corner_lattice hp).trans (joined_corner_lattice hq).symm

/-- The lattice with some further walls, none of them at a reserved cell. -/
structure Sketch (extra : List Cell) (m : Maze) : Prop where
  isWall_iff : ∀ p, m.isWall p = true ↔ lattice.isWall p = true ∨ p ∈ extra
  unreserved : ∀ p ∈ extra, reserved p = false
  pellets : ∀ p, m.isWall p = false → m.get p = .pellet
  joined : ∀ p q, m.isWall p = false → m.isWall q = false → m.Joined p q

theorem sketch_lattice : Sketch [] lattice := by
  constructor
  · simp
  · simp
  · exact fun p => get_lattice_of_open
  · exact fun p q => joined_lattice

theorem Sketch.isOpen_of_reserved (h : Sketch extra m) (hp : lattice.isWall p = false)
    (hreserved : reserved p = true) : m.isWall p = false := by
  rw [← Bool.not_eq_true, h.isWall_iff]
  rintro (hwall | hmem)
  · rw [hp] at hwall
    cases hwall
  · rw [h.unreserved p hmem] at hreserved
    cases hreserved

theorem Sketch.wall (h : Sketch extra m) (hopen : m.isWall p = false) (hp : reserved p = false)
    (hconnected : (m.set p .wall).allOpenConnected = true) :
    Sketch (p :: extra) (m.set p .wall) := by
  have hgrid := onGrid_of_open hopen
  have hwalls : ∀ q, (m.set p .wall).isWall q = true ↔ q = p ∨ m.isWall q = true := by
    intro q
    rw [isWall_set hgrid]
    by_cases he : q = p <;> simp [he]
  constructor
  · intro q
    rw [hwalls, h.isWall_iff, List.mem_cons]
    exact or_left_comm
  · exact List.forall_mem_cons.mpr ⟨hp, h.unreserved⟩
  · intro q hq
    rw [← Bool.not_eq_true, hwalls, not_or, Bool.not_eq_true] at hq
    rw [get_set hgrid, if_neg hq.1]
    exact h.pellets q hq.2
  · exact fun q r => joined_of_allOpenConnected hconnected

theorem Sketch.tryWall (h : Sketch extra m) (s : Stream) :
    ∃ extra', extra'.length ≤ extra.length + 1 ∧ Sketch extra' (m.tryWall s).1 := by
  unfold Maze.tryWall
  obtain ⟨x, s⟩ := s.between 1 20
  dsimp only
  obtain ⟨y, s⟩ := s.between 1 14
  dsimp only
  split
  · exact ⟨extra, Nat.le_succ _, h⟩
  · next hmay =>
    rw [Bool.or_eq_true, not_or, Bool.not_eq_true, Bool.not_eq_true] at hmay
    obtain ⟨hp, hopen⟩ := hmay
    split
    · next hconnected => exact ⟨_ :: extra, Nat.le_refl _, h.wall hopen hp hconnected⟩
    · refine ⟨extra, Nat.le_succ _, ?_⟩
      rw [set_set, ← h.pellets _ hopen, set_get]
      exact h

theorem Sketch.tryWalls (h : Sketch extra m) (n : Nat) (s : Stream) :
    ∃ extra', extra'.length ≤ extra.length + n ∧ Sketch extra' (tryWalls n m s).1 := by
  induction n generalizing extra m s with
  | zero => exact ⟨extra, Nat.le_refl _, h⟩
  | succ n ih =>
    obtain ⟨extra', hlength, hsketch⟩ := h.tryWall s
    obtain ⟨extra'', hlength', hsketch'⟩ := ih hsketch (m.tryWall s).2
    exact ⟨extra'', by omega, hsketch'⟩

theorem Sketch.countP_le (h : Sketch extra m) :
    cells.countP (fun p => m.isWall p && !lattice.isWall p) ≤ extra.length := by
  rw [List.countP_eq_length_filter]
  refine (nodup_cells.filter _).subperm (fun p hp => ?_) |>.length_le
  obtain ⟨-, hwall⟩ := List.mem_filter.mp hp
  rw [Bool.and_eq_true, Bool.not_eq_true'] at hwall
  rcases (h.isWall_iff p).mp hwall.1 with hlattice | hmem
  · rw [hwall.2] at hlattice
    cases hlattice
  · exact hmem

theorem get_furnish (m : Maze) (p : Cell) : m.furnish.get p =
    if p = playerStart then .empty else if p ∈ powerCells then .power else m.get p := by
  rw [furnish, get_set (by decide), get_foldl_set (by decide)]

/-- The cells that are furnished are reserved and have been open all along. -/
theorem Sketch.isWall_furnish (h : Sketch extra m) (p : Cell) : m.furnish.isWall p = m.isWall p := by
  have hstart : lattice.isWall playerStart = false := open_lattice_iff.mpr (by decide)
  have hcorners : ∀ p ∈ powerCells, lattice.isWall p = false ∧ reserved p = true := by
    intro p hp
    rw [open_lattice_iff]
    revert p
    decide
  rw [isWall, get_furnish]
  split
  · next he =>
    rw [he, h.isOpen_of_reserved hstart rfl]
    rfl
  · split
    · next hp =>
      rw [h.isOpen_of_reserved (hcorners p hp).1 (hcorners p hp).2]
      rfl
    · rfl

/-- A maze that can be won: nothing to eat is out of reach. -/
structure Winnable (m : Maze) : Prop where
  border : ∀ p, isBorder p = true → m.isWall p = true
  pillars : ∀ p, isPillar p = true → m.isWall p = true
  few : cells.countP (fun p => m.isWall p && !(isBorder p || isPillar p)) ≤ 40
  corners : ∀ p ∈ powerCells, m.get p = .power
  start : m.get playerStart = .empty
  pellets : ∀ p, m.isWall p = false → p ∉ powerCells → p ≠ playerStart → m.get p = .pellet
  homes : ∀ p ∈ ghostHomes, m.isWall p = false
  joined : ∀ p q, m.isWall p = false → m.isWall q = false → m.Joined p q
  reachable : ∀ p, isFood (m.get p) = true → m.Joined playerStart p

/-- Only a few cells are walls besides the border and the pillars. -/
theorem Sketch.few (h : Sketch extra m) :
    cells.countP (fun p => m.furnish.isWall p && !(isBorder p || isPillar p)) ≤ extra.length := by
  refine le_of_eq_of_le (List.countP_congr fun p hp => ?_) h.countP_le
  have hlattice : lattice.isWall p = (isBorder p || isPillar p) := by
    rw [Bool.eq_iff_iff, isWall_lattice_iff (mem_cells_iff.mp hp), Bool.or_eq_true]
  rw [h.isWall_furnish, hlattice]

theorem Sketch.open_home (h : Sketch extra m) (hp : p ∈ ghostHomes) : m.isWall p = false := by
  refine h.isOpen_of_reserved ?_ ?_
  · rw [open_lattice_iff]
    revert p
    decide
  · rw [reserved, List.contains_iff_mem.mpr hp]
    rfl

theorem Sketch.isWall_furnish_of_lattice (h : Sketch extra m)
    (hp : isBorder p = true ∨ isPillar p = true) : m.furnish.isWall p = true := by
  rw [h.isWall_furnish, h.isWall_iff]
  by_cases hgrid : OnGrid p
  · exact .inl ((isWall_lattice_iff hgrid).mpr hp)
  · exact .inl (isWall_of_not_onGrid hgrid)

theorem Sketch.joined_furnish (h : Sketch extra m) (hp : m.furnish.isWall p = false)
    (hq : m.furnish.isWall q = false) : m.furnish.Joined p q := by
  rw [h.isWall_furnish] at hp hq
  exact (h.joined p q hp hq).congr h.isWall_furnish

theorem get_furnish_playerStart (m : Maze) : m.furnish.get playerStart = .empty := by
  rw [get_furnish, if_pos rfl]

theorem open_of_isFood (h : isFood (m.get p) = true) : m.isWall p = false := by
  rw [isWall_eq_false_iff]
  intro hwall
  rw [hwall] at h
  cases h

theorem Sketch.winnable (h : Sketch extra m) (hlength : extra.length ≤ 40) :
    m.furnish.Winnable := by
  constructor
  · exact fun p hp => h.isWall_furnish_of_lattice (.inl hp)
  · exact fun p hp => h.isWall_furnish_of_lattice (.inr hp)
  · exact Nat.le_trans h.few hlength
  · intro p hp
    have hne : p ≠ playerStart := by
      rintro rfl
      revert hp
      decide
    rw [get_furnish, if_neg hne, if_pos hp]
  · exact get_furnish_playerStart m
  · intro p hopen hcorner hne
    rw [get_furnish, if_neg hne, if_neg hcorner]
    rw [h.isWall_furnish] at hopen
    exact h.pellets p hopen
  · intro p hp
    rw [h.isWall_furnish]
    exact h.open_home hp
  · exact fun p q => h.joined_furnish
  · intro p hfood
    have hstart : m.furnish.isWall playerStart = false := by
      rw [isWall, get_furnish_playerStart]
      rfl
    exact h.joined_furnish hstart (open_of_isFood hfood)

theorem generate_fst (s : Stream) : (generate s).1 = (tryWalls 40 lattice s).1.furnish := by
  unfold generate
  cases tryWalls 40 lattice s
  rfl

/-- Every maze that a stream makes can be won. -/
theorem generate_winnable (s : Stream) : (generate s).1.Winnable := by
  obtain ⟨extra, hlength, hsketch⟩ := sketch_lattice.tryWalls 40 s
  rw [List.length_nil, Nat.zero_add] at hlength
  rw [generate_fst]
  exact hsketch.winnable hlength

end PocketTerminal.Arcade.Maze
