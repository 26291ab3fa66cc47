import PocketTerminal.Chance.Stream
import Mathlib.Algebra.Ring.Nat
import Mathlib.Data.List.Basic

/-! # Draws

Every draw ends in its range, whatever words the stream has: an accepted word is scaled into
the range, and a draw that gives up takes the least value. -/
namespace PocketTerminal.Chance.Stream

/-- What holds of the least value and of every value offered holds of the value drawn. -/
theorem firstOf_of_forall {α : Type} {P : α → Prop} {offer : Stream → Option α × Stream} {least : α}
    (hleast : P least) (hoffer : ∀ s a, (offer s).1 = some a → P a) (tries : Nat) (s : Stream) :
    P (firstOf offer least tries s).1 := by
  induction tries generalizing s with
  | zero => exact hleast
  | succ tries ih =>
    unfold firstOf
    split
    · next a _ heq => exact hoffer s a (by rw [heq])
    · exact ih _

/-- A word scaled down by all that it could be at most. -/
theorem share_lt {bits n word k : Nat} (hword : word < 2 ^ bits) (h : share bits n word = some k) :
    k < n := by
  unfold share at h
  split at h
  · next heven =>
    cases h
    have hn : 0 < n := by
      rcases Nat.eq_zero_or_pos n with rfl | hn
      · simp at heven
      · exact hn
    rw [Nat.shiftRight_eq_div_pow]
    exact Nat.div_lt_of_lt_mul (Nat.mul_lt_mul_of_pos_right hword hn)
  · cases h

theorem below64_lt {n : Nat} (hn : 0 < n) (s : Stream) : (below64 n s).1 < n := by
  refine firstOf_of_forall (P := (· < n)) hn (fun s k hk => ?_) patience s
  exact share_lt s.word64.1.toNat_lt hk

/-- One of the items is chosen where there is one. -/
theorem exists_choose {α : Type} {items : List α} (hne : items ≠ []) (s : Stream) :
    ∃ a ∈ items, (choose items s).1 = some a := by
  have hlt := below64_lt (List.length_pos_of_ne_nil hne) s
  exact ⟨items[(below64 items.length s).1], List.getElem_mem hlt, List.getElem?_eq_getElem hlt⟩

end PocketTerminal.Chance.Stream
