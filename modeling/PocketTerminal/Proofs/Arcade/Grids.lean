import PocketTerminal.Arcade.Grid
import Mathlib.Data.List.Nodup

/-! # Cells and steps

The cells of a grid, the four cells a step away from a cell, and what two steps in a row
lead to. -/
namespace PocketTerminal

namespace Direction

variable {d e : Direction}

theorem mem_all (d : Direction) : d ∈ all := by cases d <;> decide

theorem opposite_opposite (d : Direction) : d.opposite.opposite = d := by cases d <;> rfl

theorem ne_opposite (d : Direction) : d ≠ d.opposite := by cases d <;> decide

theorem opposite_eq_iff : d.opposite = e ↔ d = e.opposite := by
  constructor
  · rintro rfl
    exact (opposite_opposite d).symm
  · rintro rfl
    exact opposite_opposite e

end Direction

namespace Arcade

variable {p q : Cell} {d e : Direction}

theorem mem_gridCells_iff {cols rows : Nat} :
    p ∈ gridCells cols rows ↔ 0 ≤ p.1 ∧ p.1 < cols ∧ 0 ≤ p.2 ∧ p.2 < rows := by
  obtain ⟨x, y⟩ := p
  simp only [gridCells, List.mem_flatMap, List.mem_map, List.mem_range, Prod.mk.injEq]
  constructor
  · rintro ⟨j, hj, i, hi, rfl, rfl⟩
    omega
  · rintro ⟨hx, hi, hy, hj⟩
    exact ⟨y.toNat, by omega, x.toNat, by omega, by omega, by omega⟩

theorem nodup_gridCells (cols rows : Nat) : (gridCells cols rows).Nodup := by
  refine List.nodup_flatMap.mpr ⟨fun y _ => ?_, ?_⟩
  · refine List.Nodup.map (fun x x' he => ?_) List.nodup_range
    exact Int.ofNat.inj (congrArg Prod.fst he)
  · refine List.nodup_range.imp fun {y y'} hne => List.disjoint_left.mpr fun p hp hp' => hne ?_
    obtain ⟨x, -, rfl⟩ := List.mem_map.mp hp
    obtain ⟨x', -, he⟩ := List.mem_map.mp hp'
    exact (Int.ofNat.inj (congrArg Prod.snd he)).symm

theorem distance_comm (p q : Cell) : distance p q = distance q p := by
  simp only [distance]
  omega

theorem distance_eq_one_iff : distance p q = 1 ↔ ∃ d, q = shift p d := by
  obtain ⟨x, y⟩ := p
  obtain ⟨x', y'⟩ := q
  constructor
  · intro h
    simp only [distance] at h
    have hcases : (x' = x ∧ y' = y - 1) ∨ (x' = x ∧ y' = y + 1) ∨ (x' = x - 1 ∧ y' = y) ∨
        (x' = x + 1 ∧ y' = y) := by omega
    rcases hcases with ⟨rfl, rfl⟩ | ⟨rfl, rfl⟩ | ⟨rfl, rfl⟩ | ⟨rfl, rfl⟩
    · exact ⟨.up, by simp [shift, Direction.delta]; omega⟩
    · exact ⟨.down, by simp [shift, Direction.delta]⟩
    · exact ⟨.left, by simp [shift, Direction.delta]; omega⟩
    · exact ⟨.right, by simp [shift, Direction.delta]⟩
  · rintro ⟨d, hd⟩
    simp only [shift, Prod.mk.injEq] at hd
    obtain ⟨rfl, rfl⟩ := hd
    cases d <;> simp only [distance, Direction.delta] <;> omega

theorem distance_shift (p : Cell) (d : Direction) : distance p (shift p d) = 1 :=
  distance_eq_one_iff.mpr ⟨d, rfl⟩

theorem shift_shift_eq_iff : shift (shift p d) e = p ↔ e = d.opposite := by
  obtain ⟨x, y⟩ := p
  cases d <;> cases e <;> simp [shift, Direction.delta, Direction.opposite] <;> omega

end Arcade
end PocketTerminal
