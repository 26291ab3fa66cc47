import PocketTerminal.Arcade.Snake
import PocketTerminal.Proofs.Arcade.Grids
import PocketTerminal.Proofs.Chance.Draws
import Mathlib.Data.List.Chain

/-! # Boards of a snake

A living snake is a chain of distinct cells of the grid that heads away from its neck, and
food lies on a free cell. The game is won with the board full and at no other time. -/
namespace PocketTerminal.Arcade.Snake

open Chance (Stream)

inductive Call where
  | turn (d : Direction)
  | step
deriving DecidableEq, Repr

namespace Board

variable {b : Board} {s : Stream} {p : Cell}

def perform : Board × Stream → Call → Board × Stream
  | (b, s), .turn d => (b.turn d, s)
  | (b, s), .step => b.step s

def run (cols rows : Int) (s : Stream) (calls : List Call) : Board :=
  (calls.foldl perform (create cols rows s)).1

def size (b : Board) : Int × Int := (b.cols, b.rows)

theorem contains_iff : b.contains p = true ↔ 0 ≤ p.1 ∧ p.1 < b.cols ∧ 0 ≤ p.2 ∧ p.2 < b.rows := by
  simp only [contains, Bool.and_eq_true, decide_eq_true_eq]
  omega

theorem mem_cells_iff : p ∈ b.cells ↔ b.contains p = true := by
  rw [cells, mem_gridCells_iff, contains_iff]
  omega

theorem mem_free_iff : p ∈ b.free ↔ b.contains p = true ∧ p ∉ b.body := by
  simp [free, mem_cells_iff]

def Full (b : Board) : Prop := ∀ p, b.contains p = true → p ∈ b.body

theorem free_eq_nil_iff : b.free = [] ↔ b.Full := by
  rw [List.eq_nil_iff_forall_not_mem]
  simp only [mem_free_iff, not_and, not_not, Full]

/-- A snake on its way, whatever it is about to find. -/
structure Crawling (b : Board) : Prop where
  nodup : b.body.Nodup
  inside : ∀ p ∈ b.body, b.contains p = true
  linked : b.body.IsChain fun p q => distance p q = 1
  /-- The head is one step from the second cell. -/
  heading : ∃ neck rest, b.body = shift neck b.dir :: neck :: rest
  forward : b.nextDir ≠ b.dir.opposite
  length : b.body.length = 3 + b.score

structure Living (b : Board) : Prop extends Crawling b where
  food_inside : b.contains b.food = true
  food_free : b.food ∉ b.body

structure Sound (b : Board) : Prop where
  living : b.alive = true → b.Living
  won_iff : b.won = true ↔ b.Full
  dead_of_won : b.won = true → b.alive = false

theorem Living.not_full (h : b.Living) : ¬ b.Full := fun hfull => h.food_free (hfull _ h.food_inside)

/-- The next step does not lead back into the neck. -/
theorem Crawling.ne_neck (h : b.Crawling) {head neck : Cell} {rest : List Cell}
    (hbody : b.body = head :: neck :: rest) : shift head b.nextDir ≠ neck := by
  obtain ⟨neck', rest', hheading⟩ := h.heading
  rw [hbody, List.cons.injEq, List.cons.injEq] at hheading
  obtain ⟨rfl, rfl, -⟩ := hheading
  intro hback
  exact h.forward (shift_shift_eq_iff.mp hback)

theorem Sound.won_of_alive (h : b.Sound) (halive : b.alive = true) : b.won = false := by
  cases hwon : b.won with
  | false => rfl
  | true => exact absurd (h.dead_of_won hwon) (by simp [halive])

/-- A death that leaves the grid with a free cell. -/
theorem sound_of_dead (halive : b.alive = false) (hwon : b.won = false) (hfull : ¬ b.Full) :
    b.Sound := by
  refine ⟨fun h => ?_, iff_of_false (by simp [hwon]) hfull, fun _ => halive⟩
  rw [halive] at h
  cases h

theorem sound_of_living (h : b.Living) (hwon : b.won = false) : b.Sound :=
  ⟨fun _ => h, iff_of_false (by simp [hwon]) h.not_full, fun hw => by simp [hwon] at hw⟩

theorem placeFood_cases (b : Board) (s : Stream) :
    b.Full ∧ (b.placeFood s).1 = { b with won := true, alive := false } ∨
      ∃ p, b.contains p = true ∧ p ∉ b.body ∧ (b.placeFood s).1 = { b with food := p } := by
  unfold placeFood
  by_cases hfree : b.free = []
  · left
    exact ⟨free_eq_nil_iff.mp hfree, by rw [hfree]; rfl⟩
  · right
    obtain ⟨p, hp, hchoice⟩ := Stream.exists_choose hfree s
    obtain ⟨hinside, hbody⟩ := mem_free_iff.mp hp
    refine ⟨p, hinside, hbody, ?_⟩
    rw [if_neg (by simpa using hfree)]
    rcases hdraw : s.choose b.free with ⟨cell, t⟩
    rw [hdraw] at hchoice
    obtain rfl : cell = some p := hchoice
    rfl

/-- Food is placed on a free cell, and with none left the game is won. -/
theorem Crawling.placeFood (h : b.Crawling) (hwon : b.won = false) (s : Stream) :
    (b.placeFood s).1.Sound := by
  rcases placeFood_cases b s with ⟨hfull, heq⟩ | ⟨p, hinside, hbody, heq⟩
  · rw [heq]
    exact ⟨(fun halive => nomatch halive), iff_of_true rfl hfull, fun _ => rfl⟩
  · rw [heq]
    have hliving : Living { b with food := p } :=
      { nodup := h.nodup, inside := h.inside, linked := h.linked, heading := h.heading,
        forward := h.forward, length := h.length, food_inside := hinside, food_free := hbody }
    exact sound_of_living hliving hwon

theorem size_placeFood (b : Board) (s : Stream) : (b.placeFood s).1.size = b.size := by
  rcases placeFood_cases b s with ⟨-, heq⟩ | ⟨p, -, -, heq⟩ <;> rw [heq] <;> rfl

theorem clampCols_bounds (n : Int) : 10 ≤ clampCols n ∧ clampCols n ≤ 40 := by
  simp only [clampCols]
  omega

theorem clampRows_bounds (n : Int) : 8 ≤ clampRows n ∧ clampRows n ≤ 30 := by
  simp only [clampRows]
  omega

def unfed (cols rows : Int) : Board :=
  { cols := cols
    rows := rows
    body := [(cols / 2, rows / 2), (cols / 2 - 1, rows / 2), (cols / 2 - 2, rows / 2)] }

theorem create_eq (cols rows : Int) (s : Stream) : create cols rows s = (unfed cols rows).placeFood s :=
  rfl

variable {cols rows : Int}

theorem crawling_unfed (hcols : 10 ≤ cols) (hrows : 8 ≤ rows) : (unfed cols rows).Crawling := by
  constructor
  · simp [unfed]
    omega
  · intro p hp
    rw [contains_iff]
    simp only [unfed, List.mem_cons, List.not_mem_nil, or_false] at hp ⊢
    rcases hp with rfl | rfl | rfl <;> dsimp only <;> omega
  · have hhead : distance (cols / 2, rows / 2) (cols / 2 - 1, rows / 2) = 1 := by
      simp only [distance]
      omega
    have htail : distance (cols / 2 - 1, rows / 2) (cols / 2 - 2, rows / 2) = 1 := by
      simp only [distance]
      omega
    exact .cons_cons hhead (.cons_cons htail (.singleton _))
  · refine ⟨(cols / 2 - 1, rows / 2), [(cols / 2 - 2, rows / 2)], ?_⟩
    simp [unfed, shift, Direction.delta]
  · exact Direction.ne_opposite .right
  · rfl

/-- The top left corner is free. -/
theorem not_full_unfed (hcols : 10 ≤ cols) (hrows : 8 ≤ rows) : ¬ (unfed cols rows).Full := by
  intro hfull
  have hcorner : (unfed cols rows).contains (0, 0) = true := by
    rw [contains_iff]
    simp only [unfed]
    omega
  have hbody := hfull _ hcorner
  simp only [unfed, List.mem_cons, Prod.mk.injEq, List.not_mem_nil, or_false] at hbody
  omega

theorem alive_create (hcols : 10 ≤ cols) (hrows : 8 ≤ rows) (s : Stream) :
    (create cols rows s).1.alive = true := by
  rw [create_eq]
  rcases placeFood_cases (unfed cols rows) s with ⟨hfull, -⟩ | ⟨p, -, -, heq⟩
  · exact absurd hfull (not_full_unfed hcols hrows)
  · rw [heq]
    rfl

theorem sound_create (hcols : 10 ≤ cols) (hrows : 8 ≤ rows) (s : Stream) :
    (create cols rows s).1.Sound :=
  (crawling_unfed hcols hrows).placeFood rfl s

theorem Sound.turn (h : b.Sound) (d : Direction) : (b.turn d).Sound := by
  unfold Board.turn
  split
  · exact h
  · next hd =>
    refine ⟨fun halive => ?_, h.won_iff, h.dead_of_won⟩
    have hliving := h.living halive
    exact { nodup := hliving.nodup, inside := hliving.inside, linked := hliving.linked,
            heading := hliving.heading, forward := hd, length := hliving.length,
            food_inside := hliving.food_inside, food_free := hliving.food_free }

theorem size_turn (b : Board) (d : Direction) : (b.turn d).size = b.size := by
  unfold Board.turn
  split <;> rfl

theorem advance_of_food (hnew : b.food ∉ b.body) (s : Stream) :
    b.advance b.food s = ({ b with body := b.food :: b.body, score := b.score + 1 } : Board).placeFood s := by
  simp [advance, hnew]

theorem advance_of_free (hfood : p ≠ b.food) (s : Stream) :
    b.advance p s =
      (if p ∈ b.body.dropLast then { b with body := b.body.dropLast, alive := false }
        else { b with body := p :: b.body.dropLast }, s) := by
  have heating : (p == b.food) = false := beq_eq_false_iff_ne.mpr hfood
  simp only [advance, heating, Bool.false_eq_true, ↓reduceIte, List.contains_iff_mem]
  split <;> rfl

theorem size_advance (b : Board) (p : Cell) (s : Stream) : (b.advance p s).1.size = b.size := by
  cases heating : p == b.food with
  | true =>
    simp only [advance, heating, ↓reduceIte]
    split
    · rfl
    · exact size_placeFood _ s
  | false =>
    simp only [advance, heating, Bool.false_eq_true, ↓reduceIte]
    split <;> rfl

/-- A head in front of the old one and of as much of the trunk as is kept. -/
theorem Crawling.crawl (h : b.Crawling) (score : Nat) {head : Cell} {trunk : List Cell}
    (hkept : head :: trunk <+: b.body) (hnew : shift head b.nextDir ∉ head :: trunk)
    (hinside : b.contains (shift head b.nextDir) = true) (hlength : trunk.length + 2 = 3 + score) :
    Crawling { b with
      dir := b.nextDir
      body := shift head b.nextDir :: head :: trunk
      score := score } := by
  have hnear : distance (shift head b.nextDir) head = 1 := by
    rw [distance_comm]
    exact distance_shift head b.nextDir
  have hlinked := List.IsChain.prefix h.linked hkept
  constructor
  · exact List.nodup_cons.mpr ⟨hnew, h.nodup.sublist hkept.sublist⟩
  · intro p hp
    rcases List.mem_cons.mp hp with rfl | hp
    · exact hinside
    · exact h.inside p (hkept.subset hp)
  · exact List.IsChain.cons_cons hnear hlinked
  · exact ⟨head, trunk, rfl⟩
  · exact Direction.ne_opposite b.nextDir
  · exact hlength

/-- On the food the whole body stays, and new food is placed. -/
theorem Living.advance_food (h : b.Living) (hwon : b.won = false) {head : Cell} {trunk : List Cell}
    (hbody : b.body = head :: trunk) (hfood : shift head b.nextDir = b.food) (s : Stream) :
    (Board.advance { b with dir := b.nextDir } (shift head b.nextDir) s).1.Sound := by
  have hlength := h.length
  rw [hbody, List.length_cons] at hlength
  have hnew : shift head b.nextDir ∉ head :: trunk := by
    rw [← hbody, hfood]
    exact h.food_free
  have hinside : b.contains (shift head b.nextDir) = true := by
    rw [hfood]
    exact h.food_inside
  have hcrawl := h.crawl (b.score + 1) (hbody ▸ List.prefix_refl _) hnew hinside (by omega)
  have heq := advance_of_food (b := { b with dir := b.nextDir }) h.food_free s
  rw [← hbody, hfood] at hcrawl
  rw [hfood]
  exact heq ▸ hcrawl.placeFood hwon s

/-- On any other cell the tail goes first, so that the head may take its place. -/
theorem Living.advance_free (h : b.Living) (hwon : b.won = false) {head neck : Cell} {rest : List Cell}
    (hbody : b.body = head :: neck :: rest) (hfood : shift head b.nextDir ≠ b.food)
    (hinside : b.contains (shift head b.nextDir) = true) (s : Stream) :
    (Board.advance { b with dir := b.nextDir } (shift head b.nextDir) s).1.Sound := by
  have hlength := h.length
  rw [hbody, List.length_cons, List.length_cons] at hlength
  have htrunk : b.body.dropLast = head :: (neck :: rest).dropLast := by
    rw [hbody, List.dropLast_cons_of_ne_nil (List.cons_ne_nil neck rest)]
  have hkept : b.food ∉ b.body.dropLast := fun hmem => h.food_free (List.dropLast_subset b.body hmem)
  have heq := advance_of_free (b := { b with dir := b.nextDir }) hfood s
  rw [heq]
  dsimp only
  split
  · exact sound_of_dead rfl hwon fun hfull => hkept (hfull _ h.food_inside)
  · next hnew =>
    rw [htrunk] at hnew hkept ⊢
    have hcrawl := h.crawl b.score (htrunk ▸ List.dropLast_prefix b.body) hnew hinside
      (by rw [List.length_dropLast, List.length_cons]; omega)
    have hfood_free := List.not_mem_cons_of_ne_of_not_mem (Ne.symm hfood) hkept
    refine sound_of_living ?_ hwon
    exact { toCrawling := hcrawl, food_inside := h.food_inside, food_free := hfood_free }

theorem step_of_alive (halive : b.alive = true) {head : Cell} {tail : List Cell}
    (hbody : b.body = head :: tail) (s : Stream) :
    b.step s =
      if b.contains (shift head b.nextDir) then
        Board.advance { b with dir := b.nextDir } (shift head b.nextDir) s
      else ({ b with dir := b.nextDir, alive := false }, s) := by
  unfold step
  rw [halive, hbody]
  rfl

theorem Sound.step (h : b.Sound) (s : Stream) : (b.step s).1.Sound := by
  cases halive : b.alive with
  | false =>
    have hstays : b.step s = (b, s) := by simp [Board.step, halive]
    rw [hstays]
    exact h
  | true =>
    have hliving := h.living halive
    have hwon := h.won_of_alive halive
    obtain ⟨neck, rest, hbody⟩ := hliving.heading
    rw [step_of_alive halive hbody]
    split
    · next hinside =>
      by_cases hfood : shift (shift neck b.dir) b.nextDir = b.food
      · exact hliving.advance_food hwon hbody hfood s
      · exact hliving.advance_free hwon hbody hfood hinside s
    · exact sound_of_dead rfl hwon hliving.not_full

theorem size_step (b : Board) (s : Stream) : (b.step s).1.size = b.size := by
  unfold step
  split
  · rfl
  · dsimp only
    split
    · rfl
    · split
      · exact size_advance _ _ s
      · rfl

theorem Sound.perform {st : Board × Stream} (h : st.1.Sound) (call : Call) :
    (perform st call).1.Sound := by
  cases call with
  | turn d => exact h.turn d
  | step => exact h.step st.2

theorem size_perform (st : Board × Stream) (call : Call) : (perform st call).1.size = st.1.size := by
  cases call with
  | turn d => exact size_turn st.1 d
  | step => exact size_step st.1 st.2

theorem Sound.foldl_perform {st : Board × Stream} (h : st.1.Sound) (calls : List Call) :
    (calls.foldl Board.perform st).1.Sound := by
  induction calls generalizing st with
  | nil => exact h
  | cons call calls ih => exact ih (h.perform call)

theorem size_foldl_perform (st : Board × Stream) (calls : List Call) :
    (calls.foldl perform st).1.size = st.1.size := by
  induction calls generalizing st with
  | nil => rfl
  | cons call calls ih => exact (ih (perform st call)).trans (size_perform st call)

theorem size_run (cols rows : Int) (s : Stream) (calls : List Call) :
    (run cols rows s calls).size = (cols, rows) := by
  rw [run, size_foldl_perform, create_eq, size_placeFood]
  rfl

/-- A new board of any size that a game can have holds a living snake. After any turns and
steps a living snake is sound and does not head for its neck, and the game is won exactly when
the body fills the grid. -/
theorem run_living (cols rows : Int) (s : Stream) (calls : List Call) :
    let b := run (clampCols cols) (clampRows rows) s calls
    (create (clampCols cols) (clampRows rows) s).1.alive = true ∧
      b.size = (clampCols cols, clampRows rows) ∧
      (b.alive = true → b.Living ∧
        ∀ head neck rest, b.body = head :: neck :: rest → shift head b.nextDir ≠ neck) ∧
      (b.won = true ↔ b.Full) ∧ (b.won = true → b.alive = false) := by
  intro b
  have hcols := (clampCols_bounds cols).1
  have hrows := (clampRows_bounds rows).1
  have hsound : b.Sound := (sound_create hcols hrows s).foldl_perform calls
  refine ⟨alive_create hcols hrows s, size_run _ _ s calls, fun halive => ?_, hsound.won_iff,
    hsound.dead_of_won⟩
  have hliving := hsound.living halive
  exact ⟨hliving, fun head neck rest => hliving.ne_neck⟩

/-- Two quick turns between two steps. -/
theorem run_living_quick_turns :
    (run (clampCols 20) (clampRows 10) default [.turn .up, .turn .left, .step]).alive = true ∧
      (run (clampCols 20) (clampRows 10) default [.turn .up, .turn .left, .step]).Living := by
  have halive : (run (clampCols 20) (clampRows 10) default
      [.turn .up, .turn .left, .step]).alive = true := by decide +kernel
  exact ⟨halive, ((run_living 20 10 default _).2.2.1 halive).1⟩

end Board
end PocketTerminal.Arcade.Snake
