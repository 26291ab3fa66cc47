import PocketTerminal.Proofs.Arcade.SnakeBoards

/-! # Lengths of a snake

What a step makes of a living snake's body. The tail goes before the head is tested against the
body and does not come back, so a snake that bites itself is left one cell shorter. -/
namespace PocketTerminal.Arcade.Snake.Board

open Chance (Stream)

variable {b : Board} {head : Cell} {tail : List Cell}

theorem body_placeFood (b : Board) (s : Stream) : (b.placeFood s).1.body = b.body := by
  rcases placeFood_cases b s with ⟨-, heq⟩ | ⟨p, -, -, heq⟩ <;> rw [heq]

/-- A living snake eats, runs into the border, bites itself or moves on. -/
theorem Living.step_cases (h : b.Living) (halive : b.alive = true) (hbody : b.body = head :: tail)
    (s : Stream) :
    let new := shift head b.nextDir
    (new = b.food ∧ (b.step s).1.body = new :: b.body) ∨
      new ≠ b.food ∧
        (b.contains new = false ∧ (b.step s).1 = { b with dir := b.nextDir, alive := false } ∨
          new ∈ b.body.dropLast ∧
            (b.step s).1 = { b with dir := b.nextDir, body := b.body.dropLast, alive := false } ∨
          new ∉ b.body.dropLast ∧
            (b.step s).1 = { b with dir := b.nextDir, body := new :: b.body.dropLast }) := by
  intro new
  have hstep : b.step s = if b.contains new then Board.advance { b with dir := b.nextDir } new s
      else ({ b with dir := b.nextDir, alive := false }, s) := step_of_alive halive hbody s
  by_cases hfood : new = b.food
  · have hadvance := advance_of_food (b := { b with dir := b.nextDir }) h.food_free s
    rw [hfood, if_pos h.food_inside, hadvance] at hstep
    exact .inl ⟨hfood, by rw [hstep, body_placeFood, hfood]⟩
  · refine .inr ⟨hfood, ?_⟩
    rw [advance_of_free (b := { b with dir := b.nextDir }) hfood s] at hstep
    cases hinside : b.contains new with
    | false =>
      rw [hinside, if_neg Bool.false_ne_true] at hstep
      exact .inl ⟨rfl, by rw [hstep]⟩
    | true =>
      rw [hinside, if_pos rfl] at hstep
      by_cases hbite : new ∈ b.body.dropLast
      · exact .inr (.inl ⟨hbite, by rw [hstep, if_pos hbite]⟩)
      · exact .inr (.inr ⟨hbite, by rw [hstep, if_neg hbite]⟩)

def next? (b : Board) : Option Cell := b.body.head?.map fun head => shift head b.nextDir

/-- On the food a living snake's body grows by one cell. Elsewhere it keeps its length, unless the
head is put on a cell that the body keeps: then the snake dies, and has lost its tail. -/
theorem Living.length_step (h : b.Living) (halive : b.alive = true) (s : Stream) :
    ∃ new, b.next? = some new ∧
      (new = b.food → (b.step s).1.body.length = b.body.length + 1) ∧
      (new ≠ b.food → new ∉ b.body.dropLast → (b.step s).1.body.length = b.body.length) ∧
      (new ≠ b.food → new ∈ b.body.dropLast →
        (b.step s).1.alive = false ∧ (b.step s).1.body.length + 1 = b.body.length) := by
  obtain ⟨neck, rest, hbody⟩ := h.heading
  have hlength : b.body.dropLast.length + 1 = b.body.length := by
    rw [List.length_dropLast, hbody]
    rfl
  refine ⟨shift (shift neck b.dir) b.nextDir, by rw [next?, hbody]; rfl, ?_⟩
  rcases h.step_cases halive hbody s with
    ⟨hfood, hgrown⟩ | ⟨hfood, ⟨houtside, heq⟩ | ⟨hbite, heq⟩ | ⟨hfree, heq⟩⟩
  · rw [hgrown, List.length_cons]
    exact ⟨fun _ => rfl, fun hne => absurd hfood hne, fun hne => absurd hfood hne⟩
  · refine ⟨fun he => absurd he hfood, fun _ _ => by rw [heq], fun _ hbite => ?_⟩
    rw [h.inside _ (List.dropLast_subset _ hbite)] at houtside
    cases houtside
  · rw [heq]
    exact ⟨fun he => absurd he hfood, fun _ hfree => absurd hbite hfree, fun _ _ => ⟨rfl, hlength⟩⟩
  · rw [heq]
    exact ⟨fun he => absurd he hfood, fun _ _ => hlength, fun _ hbite => absurd hbite hfree⟩

/-- In every step of a living snake, the one in which it dies included, the body grows by exactly
one cell if the new head is on the food, and keeps its length if not; but a snake that bites itself
is left one cell shorter. -/
theorem run_length (cols rows : Int) (s t : Stream) (calls : List Call)
    (halive : (run (clampCols cols) (clampRows rows) s calls).alive = true) :
    let b := run (clampCols cols) (clampRows rows) s calls
    ∃ new, b.next? = some new ∧
      (new = b.food → (b.step t).1.body.length = b.body.length + 1) ∧
      (new ≠ b.food → new ∉ b.body.dropLast → (b.step t).1.body.length = b.body.length) ∧
      (new ≠ b.food → new ∈ b.body.dropLast →
        (b.step t).1.alive = false ∧ (b.step t).1.body.length + 1 = b.body.length) := by
  intro b
  have hsound : b.Sound :=
    (sound_create (clampCols_bounds cols).1 (clampRows_bounds rows).1 s).foldl_perform calls
  exact (hsound.living halive).length_step halive t

/-- A snake that has eaten twice and has gone round in a square, into its own body. -/
def curled : Board :=
  run (clampCols 10) (clampRows 8) (Stream.ofSeed 6)
    [.turn .down, .step, .step, .turn .right, .step, .turn .up, .step, .turn .left]

theorem curled_eq : curled =
    { cols := 10, rows := 8, body := [(6, 5), (6, 6), (5, 6), (5, 5), (5, 4)], dir := .up
      nextDir := .left, food := (0, 7), alive := true, won := false, score := 2 } := by
  decide +kernel

/-- It dies in its next step, and has lost its tail. -/
theorem run_length_curled : curled.alive = true ∧ (curled.step default).1.alive = false ∧
    (curled.step default).1.body.length + 1 = curled.body.length := by
  have halive : curled.alive = true := by rw [curled_eq]
  have hnext : curled.next? = some (5, 5) := by
    rw [curled_eq]
    rfl
  obtain ⟨new, hnew, -, -, hbite⟩ := run_length 10 8 (Stream.ofSeed 6) default _ halive
  obtain rfl : new = (5, 5) := Option.some.inj (hnew.symm.trans hnext)
  have hfood : (5, 5) ≠ curled.food := by
    rw [curled_eq]
    decide
  have hbody : (5, 5) ∈ curled.body.dropLast := by
    rw [curled_eq]
    decide
  exact ⟨halive, hbite hfood hbody⟩

/-- The new head is not on the food, yet the body has another length after the step. -/
theorem curled_loses_tail : curled.alive = true ∧ curled.next? = some (5, 5) ∧
    (5, 5) ≠ curled.food ∧ (curled.step default).1.body.length ≠ curled.body.length := by
  rw [curled_eq]
  decide

end PocketTerminal.Arcade.Snake.Board
