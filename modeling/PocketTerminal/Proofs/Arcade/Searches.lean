import PocketTerminal.Proofs.Arcade.Mazes
import Mathlib.Data.List.Nodup
import Mathlib.Data.List.Perm.Subperm

/-! # Searches in a maze

A search takes every cell from its queue at most once, and only cells that a way leads to. One
that takes as many cells as are open has therefore taken them all. -/
namespace PocketTerminal.Arcade.Maze

variable {m : Maze} {start p q : Cell} {done queue : List Cell} {seen : Seen}

def Seen.has (seen : Seen) (p : Cell) : Bool :=
  match index? p with
  | some i => seen.get i
  | none => false

theorem Seen.has_of_index? {i : Fin 315} (h : index? p = some i) : seen.has p = seen.get i := by
  rw [has, h]

theorem Seen.has_set {i : Fin 315} (h : index? p = some i) :
    Seen.has (seen.set i true i.isLt) q = true ↔ q = p ∨ seen.has q = true := by
  cases hq : index? q with
  | none =>
    have hne : q ≠ p := by
      rintro rfl
      rw [h] at hq
      cases hq
    simp [has, hq, hne]
  | some j =>
    rw [has_of_index? hq, has_of_index? hq]
    by_cases he : q = p
    · subst he
      rw [h, Option.some.injEq] at hq
      subst hq
      exact iff_of_true (Vector.getElem_set_self i.isLt) (.inl rfl)
    · have hne : i.val ≠ j.val := by
        intro hij
        rw [← Fin.ext hij] at hq
        exact he (index?_inj hq h)
      have hkept : (seen.set i true i.isLt).get j = seen.get j := Vector.getElem_set_ne i.isLt j.isLt hne
      rw [hkept]
      simp [he]

/-- A search on its way: the cells it has taken and those in its queue are distinct, they are
the cells it has seen, and ways lead to them. -/
structure Frontier (m : Maze) (start : Cell) (done queue : List Cell) (seen : Seen) : Prop where
  nodup : (done ++ queue).Nodup
  joined : ∀ p ∈ done ++ queue, m.Joined start p
  seen_iff : ∀ p, seen.has p = true ↔ p ∈ done ++ queue

theorem meet_cases (p : Cell) (queue : List Cell) (seen : Seen) (d : Direction) :
    m.meet p (queue, seen) d = (queue, seen) ∨
      m.isWall (shift p d) = false ∧ seen.has (shift p d) = false ∧
        ∃ i, index? (shift p d) = some i ∧
          m.meet p (queue, seen) d = (queue ++ [shift p d], seen.set i true i.isLt) := by
  unfold meet
  dsimp only
  cases hi : index? (shift p d) with
  | none => exact .inl rfl
  | some i =>
    dsimp only
    by_cases hold : (m.isWall (shift p d) || seen[i]) = true
    · exact .inl (if_pos hold)
    · right
      rw [if_neg hold]
      simp only [Bool.or_eq_true, not_or, Bool.not_eq_true] at hold
      exact ⟨hold.1, (Seen.has_of_index? hi).trans hold.2, i, rfl, rfl⟩

theorem Frontier.meet (h : Frontier m start done queue seen) (hstart : m.isWall start = false)
    (hp : m.Joined start p) (d : Direction) :
    Frontier m start done (m.meet p (queue, seen) d).1 (m.meet p (queue, seen) d).2 := by
  rcases meet_cases p queue seen d with heq | ⟨hopen, hnew, i, hi, heq⟩
  · rw [heq]
    exact h
  · have hnotMem : shift p d ∉ done ++ queue := by
      intro hmem
      rw [(h.seen_iff _).mpr hmem] at hnew
      cases hnew
    rw [heq]
    constructor
    · rw [← List.append_assoc]
      exact h.nodup.append (List.nodup_singleton _) (List.disjoint_singleton.mpr hnotMem)
    · intro q hq
      rw [← List.append_assoc, List.mem_append, List.mem_singleton] at hq
      rcases hq with hq | rfl
      · exact h.joined q hq
      · exact hp.shift hstart hopen
    · intro q
      rw [Seen.has_set hi, h.seen_iff, ← List.append_assoc, List.mem_append (s := done ++ queue), List.mem_singleton]
      exact or_comm

theorem Frontier.foldl_meet (h : Frontier m start done queue seen) (hstart : m.isWall start = false)
    (hp : m.Joined start p) (directions : List Direction) :
    Frontier m start done (directions.foldl (m.meet p) (queue, seen)).1
      (directions.foldl (m.meet p) (queue, seen)).2 := by
  induction directions generalizing queue seen with
  | nil => exact h
  | cons d directions ih => exact ih (h.meet hstart hp d)

/-- By induction on the cells that may still be taken: the first in the queue is done next. -/
theorem Frontier.flood (h : Frontier m start done queue seen) (hstart : m.isWall start = false)
    (n : Nat) : ∃ done' queue' seen', Frontier m start done' queue' seen' ∧
      done'.length = done.length + m.flood n queue seen := by
  induction n generalizing done queue seen with
  | zero => exact ⟨done, queue, seen, h, rfl⟩
  | succ n ih =>
    cases queue with
    | nil => exact ⟨done, [], seen, h, rfl⟩
    | cons p queue =>
      have htaken : Frontier m start (done ++ [p]) queue seen := by
        have happend : done ++ [p] ++ queue = done ++ p :: queue := List.append_cons .. |>.symm
        exact ⟨happend ▸ h.nodup, happend ▸ h.joined, happend ▸ h.seen_iff⟩
      have hp : m.Joined start p := h.joined p (by simp)
      obtain ⟨done', queue', seen', hfrontier, hlength⟩ := ih (htaken.foldl_meet hstart hp Direction.all)
      refine ⟨done', queue', seen', hfrontier, ?_⟩
      rw [hlength, Maze.flood, List.length_append, List.length_singleton, Nat.add_assoc]
      exact congrArg (done.length + ·) (Nat.add_comm 1 _)

theorem frontier_start (hstart : m.isWall start = false) :
    Frontier m start [] [start] (seenOnly start) := by
  obtain ⟨i, hi, -⟩ := index?_of_onGrid (onGrid_of_open hstart)
  have hnone : ∀ p, Seen.has (Vector.replicate 315 false) p = false := by
    intro p
    unfold Seen.has
    split
    · exact Vector.getElem_replicate _
    · rfl
  constructor
  · exact List.nodup_singleton start
  · intro p hp
    rw [List.mem_singleton.mp hp]
  · intro p
    rw [seenOnly, hi]
    dsimp only
    rw [Seen.has_set hi, hnone]
    simp

/-- The taken cells are distinct open cells, so as many of them as there are open cells are
all of these. -/
theorem joined_of_allOpenConnected (h : m.allOpenConnected = true) (hp : m.isWall p = false)
    (hq : m.isWall q = false) : m.Joined p q := by
  unfold allOpenConnected at h
  split at h
  · cases h
  · next start rest hopen =>
    have hstart : m.isWall start = false := mem_openCells_iff.mp (hopen ▸ List.mem_cons_self)
    obtain ⟨done, queue, seen, hfrontier, hlength⟩ := (frontier_start hstart).flood hstart 315
    rw [beq_iff_eq.mp h, List.length_nil, Nat.zero_add] at hlength
    have hjoined : ∀ p ∈ done, m.Joined start p :=
      fun p hp => hfrontier.joined p (List.mem_append_left queue hp)
    have hsubset : done ⊆ m.openCells :=
      fun p hp => mem_openCells_iff.mpr ((hjoined p hp).isOpen hstart)
    have hperm : done.Perm m.openCells := by
      refine List.Subperm.perm_of_length_le (hfrontier.nodup.of_append_left.subperm hsubset) ?_
      exact Nat.le_of_eq ((congrArg List.length hopen).trans hlength.symm)
    have hall : ∀ {p}, m.isWall p = false → m.Joined start p :=
      fun hp => hjoined _ (hperm.mem_iff.mpr (mem_openCells_iff.mpr hp))
    exact (hall hp).symm.trans (hall hq)

end PocketTerminal.Arcade.Maze
