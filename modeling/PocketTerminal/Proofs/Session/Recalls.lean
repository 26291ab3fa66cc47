import PocketTerminal.Session.Run

/-! # Walking the history

The arrow keys recall earlier lines by a place in the history. What they show is told by a count
alone, how many lines back one is, which goes up to the size of the history and down to nothing. -/
namespace PocketTerminal.Session

inductive Arrow where
  | older
  | newer
deriving DecidableEq, Repr

def Arrow.key : Arrow → Key
  | older => .arrowUp
  | newer => .arrowDown

def Arrow.step (size back : Nat) : Arrow → Nat
  | older => min (back + 1) size
  | newer => back - 1

def linesBack (size : Nat) (arrows : List Arrow) : Nat := arrows.foldl (Arrow.step size) 0

def walk (s : Session) (arrows : List Arrow) : Session :=
  arrows.foldl (fun s arrow => s.press arrow.key) s

variable {s t : Session} {history : List String} {back : Nat}

/-- The shell has the keys, and the line is the one that stands so many lines back. -/
structure Recalls (s : Session) (history : List String) (back : Nat) : Prop where
  shell : s.running = none
  history_eq : s.history = history
  back_le : back ≤ history.length
  recalled_eq : s.recalled = if back = 0 then none else some (history.length - back)
  input_eq : 0 < back → history[history.length - back]? = some s.input

theorem Recalls.of_eq (h : s.Recalls history back) (hrunning : t.running = s.running)
    (hhistory : t.history = s.history) (hrecalled : t.recalled = s.recalled)
    (hinput : t.input = s.input) : t.Recalls history back where
  shell := hrunning.trans h.shell
  history_eq := hhistory.trans h.history_eq
  back_le := h.back_le
  recalled_eq := hrecalled.trans h.recalled_eq
  input_eq hback := by rw [hinput, h.input_eq hback]

theorem Recalls.eq_zero (h : s.Recalls history back) (hnone : s.recalled = none) : back = 0 := by
  have hrecalled := h.recalled_eq
  rw [hnone] at hrecalled
  split at hrecalled
  · assumption
  · cases hrecalled

theorem Recalls.pos {i : Nat} (h : s.Recalls history back) (hsome : s.recalled = some i) :
    0 < back ∧ i = history.length - back := by
  have hrecalled := h.recalled_eq
  rw [hsome] at hrecalled
  split at hrecalled
  · cases hrecalled
  · next hback => exact ⟨Nat.pos_of_ne_zero hback, Option.some.inj hrecalled⟩

def olderPlace (size : Nat) : Option Nat → Nat
  | none => size - 1
  | some i => min (i - 1) (size - 1)

theorem recallOlder_eq (s : Session) :
    s.recallOlder =
      match s.history[olderPlace s.history.length s.recalled]? with
      | some line =>
        { s with input := line, recalled := some (olderPlace s.history.length s.recalled) }
      | none => s := by
  unfold recallOlder
  cases s.recalled <;> rfl

theorem Recalls.olderPlace_eq (h : s.Recalls history back) :
    olderPlace s.history.length s.recalled = history.length - min (back + 1) history.length := by
  have hle := h.back_le
  rw [h.history_eq]
  cases hrecalled : s.recalled with
  | none =>
    have hback := h.eq_zero hrecalled
    rw [olderPlace]
    omega
  | some i =>
    obtain ⟨hback, hi⟩ := h.pos hrecalled
    rw [olderPlace]
    omega

theorem Recalls.recallOlder (h : s.Recalls history back) :
    s.recallOlder.Recalls history (min (back + 1) history.length) ∧
      (min (back + 1) history.length = 0 → s.recallOlder.input = s.input) := by
  have hle := h.back_le
  rw [recallOlder_eq, h.olderPlace_eq, h.history_eq]
  split
  · next line hline =>
    obtain ⟨hlt, -⟩ := List.getElem?_eq_some_iff.mp hline
    have hsome : min (back + 1) history.length ≠ 0 := by omega
    refine ⟨⟨h.shell, rfl, Nat.min_le_right _ _, ?_, fun _ => hline⟩, ?_⟩
    · rw [if_neg hsome]
    · intro hnone
      exact absurd hnone hsome
  · next hnone =>
    have hbeyond := List.getElem?_eq_none_iff.mp hnone
    have hback : min (back + 1) history.length = back := by omega
    rw [hback]
    exact ⟨h, fun _ => rfl⟩

theorem Recalls.recallNewer (h : s.Recalls history back) :
    s.recallNewer.Recalls history (back - 1) ∧ (back = 1 → s.recallNewer.input = "") ∧
      (back = 0 → s.recallNewer.input = s.input) := by
  have hle := h.back_le
  unfold Session.recallNewer
  cases hrecalled : s.recalled with
  | none =>
    have hback := h.eq_zero hrecalled
    subst hback
    exact ⟨h, fun hone => absurd hone Nat.zero_ne_one, fun _ => rfl⟩
  | some i =>
    obtain ⟨hback, hi⟩ := h.pos hrecalled
    have hplace : i + 1 = history.length - (back - 1) := by omega
    dsimp only
    rw [h.history_eq, hplace]
    split
    · next line hline =>
      obtain ⟨hlt, -⟩ := List.getElem?_eq_some_iff.mp hline
      have hleft : back - 1 ≠ 0 := by omega
      refine ⟨⟨h.shell, rfl, by omega, ?_, fun _ => hline⟩, ?_, ?_⟩
      · rw [if_neg hleft]
      · intro hone
        omega
      · intro hzero
        omega
    · next hnone =>
      have hbeyond := List.getElem?_eq_none_iff.mp hnone
      have hleft : back - 1 = 0 := by omega
      refine ⟨⟨h.shell, rfl, by omega, ?_, ?_⟩, fun _ => rfl, ?_⟩
      · rw [if_pos hleft]
      · intro hpos
        omega
      · intro hzero
        omega

/-- What one arrow does to the count it does to the line. -/
theorem Recalls.press (h : s.Recalls history back) (arrow : Arrow) :
    (s.press arrow.key).Recalls history (arrow.step history.length back) ∧
      (back = 1 → arrow.step history.length back = 0 → (s.press arrow.key).input = "") ∧
      (back = 0 → arrow.step history.length back = 0 → (s.press arrow.key).input = s.input) := by
  have hpress : s.press arrow.key = s.pressShell arrow.key := by
    unfold Session.press
    rw [h.shell]
  rw [hpress]
  cases arrow with
  | older =>
    obtain ⟨holder, hsame⟩ := h.recallOlder
    refine ⟨holder.of_eq rfl rfl rfl rfl, fun hone hnone => ?_, fun _ hnone => hsame hnone⟩
    have hle := h.back_le
    rw [Arrow.step] at hnone
    omega
  | newer =>
    obtain ⟨hnewer, hempty, hsame⟩ := h.recallNewer
    exact ⟨hnewer.of_eq rfl rfl rfl rfl, fun hone _ => hempty hone, fun hzero _ => hsame hzero⟩

theorem Recalls.foldl_press (h : s.Recalls history back) (arrows : List Arrow) :
    (s.walk arrows).Recalls history (arrows.foldl (Arrow.step history.length) back) := by
  induction arrows generalizing s back with
  | nil => exact h
  | cons arrow rest ih => exact ih (h.press arrow).1

theorem recalls_nothing (hshell : s.running = none) (hnone : s.recalled = none) :
    s.Recalls s.history 0 where
  shell := hshell
  history_eq := rfl
  back_le := Nat.zero_le _
  recalled_eq := hnone
  input_eq hback := absurd hback (Nat.lt_irrefl 0)

/-- After each arrow, of any number in any order, the line being typed is the one that stands as
many lines back as the count says, the newest being one line back. The arrow that brings the count
from one to nothing leaves an empty line, and one that leaves it at nothing leaves the line. The
history stays. -/
theorem walk_history (hshell : s.running = none) (hnone : s.recalled = none)
    (arrows : List Arrow) (arrow : Arrow) :
    let before := linesBack s.history.length arrows
    let now := arrow.step s.history.length before
    (s.walk (arrows ++ [arrow])) = (s.walk arrows).press arrow.key ∧
      (0 < now → s.history.reverse[now - 1]? = some (s.walk (arrows ++ [arrow])).input) ∧
      (before = 1 → now = 0 → (s.walk (arrows ++ [arrow])).input = "") ∧
      (before = 0 → now = 0 → (s.walk (arrows ++ [arrow])).input = (s.walk arrows).input) ∧
      (s.walk (arrows ++ [arrow])).history = s.history := by
  intro before now
  have hconcat : s.walk (arrows ++ [arrow]) = (s.walk arrows).press arrow.key := by
    rw [walk, List.foldl_append]
    rfl
  have hbefore : (s.walk arrows).Recalls s.history before :=
    (recalls_nothing hshell hnone).foldl_press arrows
  obtain ⟨hnow, hempty, hsame⟩ := hbefore.press arrow
  rw [hconcat]
  refine ⟨rfl, fun hback => ?_, hempty, hsame, hnow.history_eq⟩
  have hle := hnow.back_le
  have hplace : s.history.length - 1 - (now - 1) = s.history.length - now := by omega
  rw [List.getElem?_reverse (by omega), hplace]
  exact hnow.input_eq hback

/-- Past the oldest of two lines and back beyond the newest. -/
theorem walk_history_zigzag :
    ∃ s : Session, s.running = none ∧ s.recalled = none ∧ s.history = ["one", "two"] ∧
      (s.walk [.newer, .older, .older, .older]).input = "one" ∧
      (s.walk [.newer, .older, .older, .older, .newer, .newer]).input = "" := by
  let s : Session := { start default with history := ["one", "two"] }
  have holdest := (walk_history (s := s) rfl rfl [.newer, .older, .older] .older).2.1 (by decide)
  have hnothing := (walk_history (s := s) rfl rfl [.newer, .older, .older, .older, .newer] .newer).2.2.1
  exact ⟨s, rfl, rfl, rfl, (Option.some.inj holdest).symm, hnothing (by decide) (by decide)⟩

end PocketTerminal.Session
