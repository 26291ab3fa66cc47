import PocketTerminal.Chess.Moves
import PocketTerminal.Proofs.Lists

/-! # Boards and their squares

What a position holds after a piece is put down, how many pieces it has, and the squares
that lie some files and ranks away from another. -/
namespace PocketTerminal.Chess

theorem Side.other_other (side : Side) : side.other.other = side := by cases side <;> rfl

theorem Side.other_ne (side : Side) : side.other ≠ side := by cases side <;> simp [Side.other]

theorem Side.eq_other_of_ne {a b : Side} (h : a ≠ b) : a = b.other := by
  cases a <;> cases b <;> first | rfl | exact absurd rfl h

theorem Side.forward_other (side : Side) : side.other.forward = -side.forward := by
  cases side <;> rfl

theorem Side.forward_natAbs (side : Side) : side.forward.natAbs = 1 := by cases side <;> rfl

theorem Piece.of_some_eq {a b : PieceKind} {c d : Side}
    (h : (some ⟨a, c⟩ : Option Piece) = some ⟨b, d⟩) : a = b ∧ c = d := by
  injection h with h
  exact Piece.mk.inj h

namespace Square

theorem ext_iff {s t : Square} : s = t ↔ s.file = t.file ∧ s.rank = t.rank := by
  cases s
  cases t
  simp

theorem index_injective {s t : Square} (h : s.index = t.index) : s = t := by
  obtain ⟨⟨a, ha⟩, ⟨b, hb⟩⟩ := s
  obtain ⟨⟨c, hc⟩, ⟨d, hd⟩⟩ := t
  simp only [index, Fin.mk.injEq] at h
  simp only [mk.injEq, Fin.mk.injEq]
  omega

theorem mem_all (s : Square) : s ∈ all :=
  List.mem_flatMap.mpr ⟨s.rank, List.mem_finRange _, List.mem_map.mpr ⟨s.file, List.mem_finRange _, rfl⟩⟩

theorem nodup_all : all.Nodup := by
  refine List.nodup_flatMap.mpr ⟨fun rank _ => ?_, ?_⟩
  · refine (List.nodup_finRange 8).map fun a b hab => ?_
    exact (ext_iff.mp hab).1
  · refine (List.nodup_finRange 8).imp fun {a b} hne => ?_
    refine List.disjoint_left.mpr fun s ha hb => hne ?_
    obtain ⟨f, -, rfl⟩ := List.mem_map.mp ha
    obtain ⟨g, -, hg⟩ := List.mem_map.mp hb
    exact (ext_iff.mp hg).2.symm

def Away (s t : Square) (df dr : Int) : Prop :=
  (t.file.val : Int) = s.file.val + df ∧ (t.rank.val : Int) = s.rank.val + dr

instance (s t : Square) (df dr : Int) : Decidable (s.Away t df dr) :=
  inferInstanceAs (Decidable (_ ∧ _))

variable {s t u : Square} {df dr : Int} {d : Int × Int}

theorem Away.symm (h : s.Away t df dr) : t.Away s (-df) (-dr) := by
  unfold Away at *
  omega

theorem Away.eq (h : s.Away t df dr) (h' : s.Away u df dr) : t = u := by
  unfold Away at *
  refine ext_iff.mpr ⟨Fin.ext ?_, Fin.ext ?_⟩ <;> omega

theorem Away.file_eq (h : s.Away t 0 dr) : s.file = t.file := by
  unfold Away at h
  exact Fin.ext (by omega)

theorem Away.ne (h : s.Away t df dr) (hne : dr ≠ 0) : s ≠ t := by
  rintro rfl
  unfold Away at h
  omega

theorem away_zero : s.Away t 0 0 ↔ s = t := by
  rw [ext_iff, Fin.ext_iff, Fin.ext_iff]
  unfold Away
  omega

theorem coordinate?_eq_some_iff {n : Int} {a : Fin 8} :
    coordinate? n = some a ↔ (a.val : Int) = n := by
  unfold coordinate?
  split
  · next h =>
    rw [Option.some.injEq, Fin.ext_iff]
    dsimp only
    omega
  · next h =>
    refine ⟨(by cases ·), fun he => absurd ?_ h⟩
    omega

theorem offset_eq_some_iff : s.offset d = some t ↔ s.Away t d.1 d.2 := by
  unfold offset Away
  cases hf : coordinate? (s.file.val + d.1) with
  | none =>
    refine ⟨(by cases ·), fun he => ?_⟩
    rw [coordinate?_eq_some_iff.mpr he.1] at hf
    cases hf
  | some f =>
    cases hr : coordinate? (s.rank.val + d.2) with
    | none =>
      refine ⟨(by cases ·), fun he => ?_⟩
      rw [coordinate?_eq_some_iff.mpr he.2] at hr
      cases hr
    | some r =>
      rw [← coordinate?_eq_some_iff, ← coordinate?_eq_some_iff, hf, hr]
      simp [ext_iff]

theorem offset_eq_none_iff : s.offset d = none ↔ ∀ t, ¬ s.Away t d.1 d.2 := by
  rw [Option.eq_none_iff_forall_ne_some]
  exact forall_congr' fun t => not_congr offset_eq_some_iff

end Square

namespace Position

variable {p : Position} {s t : Square} {piece : Option Piece}

theorem at?_put : (p.put s piece).at? t = if t = s then piece else p.at? t := by
  unfold at? put
  by_cases h : t = s
  · subst h
    simp
  · have hne : (s.index : Nat) ≠ t.index := fun he => h (Square.index_injective (Fin.ext he)).symm
    simp [h, Vector.getElem_set_ne _ _ hne]

def count (p : Position) (sort : Piece → Bool) : Nat :=
  Square.all.countP fun s => (p.at? s).any sort

theorem count_put (p : Position) (s : Square) (piece : Option Piece) (sort : Piece → Bool) :
    (p.put s piece).count sort + (if (p.at? s).any sort then 1 else 0) =
      p.count sort + (if piece.any sort then 1 else 0) := by
  have h := countP_update Square.nodup_all (Square.mem_all s)
    (f := fun t => (p.at? t).any sort) (g := fun t => ((p.put s piece).at? t).any sort)
    fun t ht => by rw [at?_put, if_neg ht]
  rwa [at?_put, if_pos rfl] at h

end Position
end PocketTerminal.Chess
