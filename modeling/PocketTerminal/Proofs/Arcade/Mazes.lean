import PocketTerminal.Arcade.Maze
import PocketTerminal.Proofs.Arcade.Grids
import Mathlib.Logic.Relation

/-! # Mazes

What a maze holds at each cell, what setting one tile does to it, and when two cells of it are
joined by a way through open cells. -/
namespace PocketTerminal.Arcade.Maze

variable {m : Maze} {p q : Cell} {tile tile' : Tile}

def OnGrid (p : Cell) : Prop := 0 ≤ p.1 ∧ p.1 < 21 ∧ 0 ≤ p.2 ∧ p.2 < 15

instance (p : Cell) : Decidable (OnGrid p) := inferInstanceAs (Decidable (_ ∧ _))

theorem mem_cells_iff : p ∈ cells ↔ OnGrid p := mem_gridCells_iff

theorem nodup_cells : cells.Nodup := nodup_gridCells cols rows

theorem length_cells : cells.length = 315 := by simp [cells, gridCells, cols, rows]

theorem index?_of_onGrid (h : OnGrid p) : ∃ i, index? p = some i ∧ i.val = (p.2 * 21 + p.1).toNat :=
  ⟨_, dif_pos h, rfl⟩

theorem index?_of_not_onGrid (h : ¬ OnGrid p) : index? p = none := dif_neg h

theorem onGrid_of_index? {i : Fin 315} (h : index? p = some i) : OnGrid p := by
  by_contra hp
  rw [index?_of_not_onGrid hp] at h
  cases h

theorem index?_inj {i : Fin 315} (hp : index? p = some i) (hq : index? q = some i) : p = q := by
  have hpgrid := onGrid_of_index? hp
  have hqgrid := onGrid_of_index? hq
  obtain ⟨j, hj, hjval⟩ := index?_of_onGrid hpgrid
  obtain ⟨k, hk, hkval⟩ := index?_of_onGrid hqgrid
  rw [hp, Option.some.injEq] at hj
  rw [hq, Option.some.injEq] at hk
  rw [← hj] at hjval
  rw [← hk, hjval] at hkval
  obtain ⟨x, y⟩ := p
  obtain ⟨x', y'⟩ := q
  simp only [OnGrid] at hpgrid hqgrid
  simp only [Prod.mk.injEq]
  dsimp only at hkval
  omega

theorem get_of_index? {i : Fin 315} (h : index? p = some i) : m.get p = m.tiles.get i := by
  rw [get, h]
  rfl

theorem get_of_not_onGrid (h : ¬ OnGrid p) : m.get p = .wall := by
  rw [get, index?_of_not_onGrid h]

theorem isWall_iff : m.isWall p = true ↔ m.get p = .wall := beq_iff_eq

theorem isWall_eq_false_iff : m.isWall p = false ↔ m.get p ≠ .wall := beq_eq_false_iff_ne

theorem isWall_of_not_onGrid (h : ¬ OnGrid p) : m.isWall p = true :=
  isWall_iff.mpr (get_of_not_onGrid h)

theorem onGrid_of_open (h : m.isWall p = false) : OnGrid p := by
  by_contra hp
  rw [isWall_of_not_onGrid hp] at h
  cases h

theorem mem_openCells_iff : p ∈ m.openCells ↔ m.isWall p = false := by
  rw [openCells, List.mem_filter, mem_cells_iff, Bool.not_eq_true']
  exact ⟨And.right, fun h => ⟨onGrid_of_open h, h⟩⟩

theorem get_set (hp : OnGrid p) : (m.set p tile).get q = if q = p then tile else m.get q := by
  obtain ⟨i, hi, -⟩ := index?_of_onGrid hp
  have hset : m.set p tile = ⟨m.tiles.set i tile⟩ := by rw [set, hi]
  by_cases hq : OnGrid q
  · obtain ⟨j, hj, -⟩ := index?_of_onGrid hq
    rw [hset, get_of_index? hj, get_of_index? hj]
    by_cases he : q = p
    · subst he
      rw [hi, Option.some.injEq] at hj
      subst hj
      rw [if_pos rfl]
      exact Vector.getElem_set_self i.isLt
    · have hne : i.val ≠ j.val := by
        intro hij
        rw [← Fin.ext hij] at hj
        exact he (index?_inj hj hi)
      rw [if_neg he]
      exact Vector.getElem_set_ne i.isLt j.isLt hne
  · rw [get_of_not_onGrid hq, get_of_not_onGrid hq, if_neg]
    rintro rfl
    exact hq hp

theorem isWall_set (hp : OnGrid p) :
    (m.set p tile).isWall q = if q = p then tile == .wall else m.isWall q := by
  simp only [isWall, get_set hp]
  split <;> rfl

theorem get_foldl_set {cells : List Cell} (h : ∀ p ∈ cells, OnGrid p) :
    (cells.foldl (fun m p => m.set p tile) m).get q = if q ∈ cells then tile else m.get q := by
  induction cells generalizing m with
  | nil => simp
  | cons p cells ih =>
    obtain ⟨hp, hcells⟩ := List.forall_mem_cons.mp h
    rw [List.foldl_cons, ih hcells, get_set hp]
    by_cases hq : q ∈ cells
    · simp [hq]
    · simp [hq, List.mem_cons]

theorem set_set : (m.set p tile).set p tile' = m.set p tile' := by
  simp only [set]
  split
  · rw [Vector.set_set]
  · rfl

/-- The tile that is there already. -/
theorem set_get : m.set p (m.get p) = m := by
  simp only [set, get]
  split
  · exact congrArg Maze.mk (Vector.set_getElem_self _)
  · rfl

/-- Nothing is left to eat where there was nothing or where it is taken away. -/
theorem pelletsLeft_set_le (htile : isFood tile = false) :
    (m.set p tile).pelletsLeft ≤ m.pelletsLeft := by
  unfold set
  split
  · next i _ =>
    have hlength : i.val < m.tiles.toList.length := by
      rw [Vector.length_toList]
      exact i.isLt
    simp only [pelletsLeft, Vector.toList_set]
    rw [List.countP_set hlength, htile]
    exact Nat.sub_le _ _
  · exact Nat.le_refl _

def Adjacent (m : Maze) (p q : Cell) : Prop :=
  m.isWall p = false ∧ m.isWall q = false ∧ distance p q = 1

/-- A way through open cells, each next to the one before. -/
abbrev Joined (m : Maze) : Cell → Cell → Prop := Relation.ReflTransGen m.Adjacent

theorem Adjacent.symm (h : m.Adjacent p q) : m.Adjacent q p :=
  ⟨h.2.1, h.1, (distance_comm q p).trans h.2.2⟩

theorem Joined.symm (h : m.Joined p q) : m.Joined q p := by
  induction h with
  | refl => exact .refl
  | tail _ hstep ih => exact .head hstep.symm ih

theorem Joined.isOpen (h : m.Joined p q) (hp : m.isWall p = false) : m.isWall q = false := by
  cases h with
  | refl => exact hp
  | tail _ hstep => exact hstep.2.1

theorem Joined.shift (h : m.Joined p q) (hp : m.isWall p = false) {d : Direction}
    (hnext : m.isWall (Arcade.shift q d) = false) : m.Joined p (Arcade.shift q d) :=
  h.tail ⟨h.isOpen hp, hnext, distance_shift q d⟩

/-- Ways of a maze are ways of every maze with the same walls. -/
theorem Joined.congr {m' : Maze} (h : m.Joined p q) (hwalls : ∀ r, m'.isWall r = m.isWall r) :
    m'.Joined p q := by
  refine Relation.ReflTransGen.mono (fun r r' hstep => ?_) p q h
  rw [Adjacent, hwalls r, hwalls r']
  exact hstep

end PocketTerminal.Arcade.Maze
