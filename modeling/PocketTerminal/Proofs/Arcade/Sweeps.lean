import PocketTerminal.Proofs.Arcade.Searches
import Mathlib.Data.List.Nodup

/-! # What a search takes

A search that is run until nothing is left in its queue takes the cells that ways lead to from its
start, each of them once. It never needs more turns than there are cells. So it takes as many cells
as are open just where all of these are joined. -/
namespace PocketTerminal.Arcade.Maze

variable {m : Maze} {start p : Cell} {done queue taken : List Cell} {seen : Seen}

/-- A search run until its queue is empty, for as long as that takes: the cells it takes, in
order. -/
inductive Takes (m : Maze) : List Cell → Seen → List Cell → Prop where
  | nothing (seen : Seen) : Takes m [] seen []
  | next {p : Cell} {queue taken : List Cell} {seen : Seen}
      (rest : Takes m (Direction.all.foldl (m.meet p) (queue, seen)).1
        (Direction.all.foldl (m.meet p) (queue, seen)).2 taken) :
      Takes m (p :: queue) seen (p :: taken)

/-- A search on its way that has met all the open neighbours of the cells it has taken. -/
structure Sweep (m : Maze) (start : Cell) (done queue : List Cell) (seen : Seen) : Prop
    extends Frontier m start done queue seen where
  begun : start ∈ done ++ queue
  met : ∀ p ∈ done, ∀ d, m.isWall (shift p d) = false → shift p d ∈ done ++ queue

theorem Frontier.length_le (h : Frontier m start done queue seen)
    (hstart : m.isWall start = false) : done.length + queue.length ≤ 315 := by
  have hsubset : done ++ queue ⊆ cells := fun p hp =>
    mem_cells_iff.mpr (onGrid_of_open ((h.joined p hp).isOpen hstart))
  have hle := (h.nodup.subperm hsubset).length_le
  rwa [List.length_append, length_cells] at hle

theorem subset_meet (p : Cell) (queue : List Cell) (seen : Seen) (d : Direction) :
    queue ⊆ (m.meet p (queue, seen) d).1 := by
  rcases meet_cases p queue seen d with heq | ⟨-, -, i, -, heq⟩
  · rw [heq]
    exact List.Subset.refl queue
  · rw [heq]
    exact List.subset_append_left queue _

theorem subset_foldl_meet (p : Cell) (queue : List Cell) (seen : Seen)
    (directions : List Direction) : queue ⊆ (directions.foldl (m.meet p) (queue, seen)).1 := by
  induction directions generalizing queue seen with
  | nil => exact List.Subset.refl queue
  | cons d directions ih => exact List.Subset.trans (subset_meet p queue seen d) (ih _ _)

/-- An open neighbour has been seen before, or it is put in the queue now. -/
theorem Frontier.mem_meet (h : Frontier m start done queue seen) {d : Direction}
    (hopen : m.isWall (shift p d) = false) : shift p d ∈ done ++ (m.meet p (queue, seen) d).1 := by
  obtain ⟨i, hi, -⟩ := index?_of_onGrid (onGrid_of_open hopen)
  by_cases hseen : seen.has (shift p d) = true
  · rcases List.mem_append.mp ((h.seen_iff _).mp hseen) with hmem | hmem
    · exact List.mem_append_left _ hmem
    · exact List.mem_append_right _ (subset_meet p queue seen d hmem)
  · have hnew : seen[i] = false := by
      rw [Seen.has_of_index? hi, Bool.not_eq_true] at hseen
      exact hseen
    have hmeet : (m.meet p (queue, seen) d).1 = queue ++ [shift p d] := by
      unfold Maze.meet
      simp only [hi, hopen, hnew, Bool.or_false, Bool.false_eq_true, if_false]
    rw [hmeet]
    simp

theorem Frontier.mem_foldl_meet (h : Frontier m start done queue seen)
    (hstart : m.isWall start = false) (hp : m.Joined start p) {directions : List Direction}
    {d : Direction} (hd : d ∈ directions) (hopen : m.isWall (shift p d) = false) :
    shift p d ∈ done ++ (directions.foldl (m.meet p) (queue, seen)).1 := by
  induction directions generalizing queue seen with
  | nil => cases hd
  | cons e directions ih =>
    rcases List.mem_cons.mp hd with rfl | hd
    · have hkept := subset_foldl_meet (m := m) p (m.meet p (queue, seen) d).1
        (m.meet p (queue, seen) d).2 directions
      rcases List.mem_append.mp (h.mem_meet hopen) with hmem | hmem
      · exact List.mem_append_left _ hmem
      · exact List.mem_append_right _ (hkept hmem)
    · exact ih (h.meet hstart hp e) hd

/-- The first cell of the queue is taken, and its neighbours are met. -/
theorem Sweep.next (h : Sweep m start done (p :: queue) seen) (hstart : m.isWall start = false) :
    Sweep m start (done ++ [p]) (Direction.all.foldl (m.meet p) (queue, seen)).1
      (Direction.all.foldl (m.meet p) (queue, seen)).2 := by
  have happend : done ++ [p] ++ queue = done ++ p :: queue := (List.append_cons ..).symm
  have htaken : Frontier m start (done ++ [p]) queue seen :=
    ⟨happend ▸ h.nodup, happend ▸ h.joined, happend ▸ h.seen_iff⟩
  have hp : m.Joined start p := h.joined p (by simp)
  have hkept : done ++ p :: queue ⊆
      done ++ [p] ++ (Direction.all.foldl (m.meet p) (queue, seen)).1 := by
    rw [← happend]
    refine List.append_subset.mpr ⟨List.subset_append_left _ _, ?_⟩
    exact List.Subset.trans (subset_foldl_meet p queue seen _) (List.subset_append_right _ _)
  refine ⟨htaken.foldl_meet hstart hp Direction.all, hkept h.begun, fun q hq d hopen => ?_⟩
  rcases List.mem_append.mp hq with hq | hq
  · exact hkept (h.met q hq d hopen)
  · rw [List.mem_singleton.mp hq] at hopen ⊢
    exact htaken.mem_foldl_meet hstart hp (Direction.mem_all d) hopen

/-- By induction on the turns that are left: there are enough of them for all cells that have not
been taken. -/
theorem Sweep.takes (h : Sweep m start done queue seen) (hstart : m.isWall start = false) {n : Nat}
    (hn : 315 ≤ done.length + n) : ∃ taken seen', m.Takes queue seen taken ∧
      m.flood n queue seen = taken.length ∧ Sweep m start (done ++ taken) [] seen' := by
  induction n generalizing done queue seen with
  | zero =>
    have hempty : queue = [] := by
      have hle := h.length_le hstart
      exact List.length_eq_zero_iff.mp (by omega)
    subst hempty
    exact ⟨[], seen, .nothing seen, rfl, by rwa [List.append_nil]⟩
  | succ n ih =>
    cases queue with
    | nil => exact ⟨[], seen, .nothing seen, rfl, by rwa [List.append_nil]⟩
    | cons p queue =>
      have hleft : 315 ≤ (done ++ [p]).length + n := by
        rw [List.length_append, List.length_singleton]
        omega
      obtain ⟨taken, seen', htakes, hcount, hsweep⟩ := ih (h.next hstart) hleft
      refine ⟨p :: taken, seen', .next htakes, ?_, ?_⟩
      · rw [Maze.flood, List.length_cons]
        exact congrArg (· + 1) hcount
      · rwa [List.append_assoc, List.singleton_append] at hsweep

/-- What has been taken when the queue is empty is closed under steps to open cells. -/
theorem Sweep.mem_of_joined (h : Sweep m start taken [] seen) (hp : m.Joined start p) :
    p ∈ taken := by
  induction hp with
  | refl => exact List.append_nil taken ▸ h.begun
  | tail _ hstep ih =>
    obtain ⟨d, rfl⟩ := distance_eq_one_iff.mp hstep.2.2
    exact List.append_nil taken ▸ h.met _ ih d hstep.2.1

/-- Every search ends, and takes just the cells that ways lead to. -/
theorem exists_takes (hstart : m.isWall start = false) :
    ∃ taken, m.Takes [start] (seenOnly start) taken ∧ taken.Nodup ∧
      (∀ p, p ∈ taken ↔ m.Joined start p) ∧
      m.flood 315 [start] (seenOnly start) = taken.length := by
  have hsweep : Sweep m start [] [start] (seenOnly start) :=
    ⟨frontier_start hstart, List.mem_singleton_self start, fun p hp => by cases hp⟩
  obtain ⟨taken, seen, htakes, hcount, hend⟩ := hsweep.takes hstart (Nat.le_add_left 315 _)
  rw [List.nil_append] at hend
  refine ⟨taken, htakes, hend.nodup.of_append_left, fun p => ⟨fun hp => ?_, hend.mem_of_joined⟩,
    hcount⟩
  exact hend.joined p (List.mem_append_left [] hp)

theorem openCells_nodup (m : Maze) : m.openCells.Nodup := nodup_cells.filter _

/-- Where all open cells are joined, a search takes all of them. -/
theorem allOpenConnected_of_joined (hopen : m.isWall p = false)
    (hall : ∀ p q, m.isWall p = false → m.isWall q = false → m.Joined p q) :
    m.allOpenConnected = true := by
  unfold allOpenConnected
  split
  · next hnone => cases hnone ▸ mem_openCells_iff.mpr hopen
  · next start rest hcells =>
    have hstart : m.isWall start = false := mem_openCells_iff.mp (hcells ▸ List.mem_cons_self)
    obtain ⟨taken, -, hnodup, hmem, hcount⟩ := exists_takes hstart
    have hperm : taken.Perm m.openCells := by
      refine (List.perm_ext_iff_of_nodup hnodup m.openCells_nodup).mpr fun q => ?_
      rw [hmem, mem_openCells_iff]
      exact ⟨fun hq => hq.isOpen hstart, hall start q hstart⟩
    rw [beq_iff_eq, hcount, hperm.length_eq, hcells, List.length_cons]

/-- For every maze, whatever its walls: the comparison after a search says whether there is an open
cell and every two open cells are joined. A search from an open cell comes to the end of its queue,
within the turns it is given, and takes each cell that a way leads to once and no other. -/
theorem allOpenConnected_exact (m : Maze) :
    (m.allOpenConnected = true ↔ (∃ p, m.isWall p = false) ∧
      ∀ p q, m.isWall p = false → m.isWall q = false → m.Joined p q) ∧
    ∀ start, m.isWall start = false → ∃ taken, m.Takes [start] (seenOnly start) taken ∧
      taken.Nodup ∧ (∀ p, p ∈ taken ↔ m.Joined start p) ∧
      m.flood 315 [start] (seenOnly start) = taken.length := by
  refine ⟨⟨fun h => ⟨?_, fun p q => joined_of_allOpenConnected h⟩, ?_⟩, fun start => exists_takes⟩
  · unfold allOpenConnected at h
    split at h
    · cases h
    · next start rest hcells => exact ⟨start, mem_openCells_iff.mp (hcells ▸ List.mem_cons_self)⟩
  · rintro ⟨⟨p, hopen⟩, hall⟩
    exact allOpenConnected_of_joined hopen hall

end PocketTerminal.Arcade.Maze
