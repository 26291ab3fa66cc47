import PocketTerminal.Proofs.Chess.Waiting
import PocketTerminal.Proofs.Lists
import Mathlib.Algebra.Order.Ring.Abs
import Mathlib.Algebra.Order.Ring.Rat
import Mathlib.Tactic.Linarith
import Mathlib.Tactic.Ring

/-! # The computer's replies

The move that the computer picks is one of the best by what moves are worth, and once its delay
is over the next tick plays it. Whatever has been done to the game before, its position is one
that legal moves lead to and its status is that of the position, so there is a move to pick where
the game is not over, and the move is legal with a queen in the place of any other promotion. -/
namespace PocketTerminal.Chess

def fromMiddle (n : Fin 8) : ℚ := |(n.val : ℚ) - 7 / 2|

theorem offCentre_eq (n : Fin 8) : (offCentre n : ℚ) = 2 * fromMiddle n := by
  have hdouble : (2 * ((n.val : ℚ) - 7 / 2)) = ((2 * (n.val : Int) - 7 : Int) : ℚ) := by
    push_cast
    ring
  rw [offCentre, Nat.cast_natAbs, Int.cast_abs, ← hdouble, abs_mul, fromMiddle]
  norm_num

theorem offCentre_le (n : Fin 8) : offCentre n ≤ 7 := by
  unfold offCentre
  omega

namespace Position

variable {p : Position} {m : Move} {stream : Chance.Stream}

/-- Ten for each pawn's worth that a move takes, eight for each that it promotes to, and seven
less the distances of its target from the middle of the board. -/
def worth (p : Position) (m : Move) : ℚ :=
  10 * ((p.at? m.target).elim 0 fun piece => (piece.kind.value : ℚ)) +
    8 * (m.promotion.elim 0 fun kind => (kind.value : ℚ)) +
    (7 - (fromMiddle m.target.file + fromMiddle m.target.rank))

theorem score_eq (p : Position) (m : Move) : (score p m : ℚ) = 2 * p.worth m := by
  have hfile := offCentre_le m.target.file
  have hrank := offCentre_le m.target.rank
  have hcentre : ((14 - (offCentre m.target.file + offCentre m.target.rank) : Nat) : ℚ) =
      2 * (7 - (fromMiddle m.target.file + fromMiddle m.target.rank)) := by
    rw [Nat.cast_sub (by omega), Nat.cast_add, offCentre_eq, offCentre_eq]
    push_cast
    ring
  have hcast {α : Type} (o : Option α) (f : α → Nat) :
      ((o.elim 0 f : Nat) : ℚ) = o.elim 0 fun a => (f a : ℚ) := by cases o <;> simp
  rw [score, worth, Nat.cast_add, hcentre, Nat.cast_mul, Nat.cast_add, Nat.cast_mul, Nat.cast_mul,
    hcast, hcast]
  push_cast
  ring

theorem score_lt_iff {m' : Move} : score p m < score p m' ↔ p.worth m < p.worth m' := by
  rw [← Nat.cast_lt (α := ℚ), score_eq, score_eq]
  constructor <;> intro h <;> linarith

/-- A legal move with fewer than so many better ones. -/
structure AmongBest (p : Position) (count : Nat) (m : Move) : Prop where
  legal : m ∈ p.legalMoves
  few : (p.legalMoves.filter fun m' => p.worth m < p.worth m').length < count

theorem ranked_pairwise (p : Position) :
    (ranked p).Pairwise fun m m' => score p m' ≤ score p m := by
  have htrans (a b c : Move) (hab : decide (score p b ≤ score p a) = true)
      (hbc : decide (score p c ≤ score p b) = true) : decide (score p c ≤ score p a) = true := by
    simp only [decide_eq_true_eq] at hab hbc ⊢
    exact hbc.trans hab
  have htotal (a b : Move) :
      (decide (score p b ≤ score p a) || decide (score p a ≤ score p b)) = true := by
    simpa using le_total (score p b) (score p a)
  simpa only [ranked, decide_eq_true_eq] using List.pairwise_mergeSort htrans htotal p.legalMoves

theorem amongBest_of_mem_take {count : Nat} (hm : m ∈ (ranked p).take count) :
    p.AmongBest count m where
  legal := (ranked_perm p).subset (List.mem_of_mem_take hm)
  few := by
    have hfew := length_filter_lt_of_mem_take (ranked_pairwise p) hm
    simp only [score_lt_iff] at hfew
    rwa [((ranked_perm p).filter _).length_eq] at hfew

theorem mem_take_of_pickMove (hpick : (pickMove p stream).1 = some m) :
    m ∈ (ranked p).take choices := by
  unfold pickMove at hpick
  dsimp only at hpick
  split at hpick
  · cases hpick
  · exact List.mem_of_getElem? hpick

theorem pickMove_eq_none_iff : (pickMove p stream).1 = none ↔ p.legalMoves = [] := by
  constructor
  · intro hnone
    by_contra hne
    obtain ⟨m, -, hpick⟩ := exists_pickMove hne stream
    rw [hnone] at hpick
    cases hpick
  · intro hnil
    have hranked : ranked p = [] := List.Perm.eq_nil (hnil ▸ ranked_perm p)
    unfold pickMove
    rw [hranked]
    rfl

end Position

namespace Game

open Chance (Stream)

variable {g g' : Game} {m : Move}

/-- What a call can make of a game: nothing that the rules know of, a legal move, or a new game. -/
inductive Becomes (g : Game) : Game → Prop
  | same {g' : Game} : g'.position = g.position → g'.status = g.status → g'.bot = g.bot →
      Becomes g g'
  | moved {g' : Game} {m : Move} : m ∈ g.position.legalMoves → g'.position = g.position.apply m →
      g'.status = g'.position.status → g'.bot = g.bot → Becomes g g'
  | renewed {g' : Game} : g'.position = .initial → g'.status = .playing →
      g'.bot = (if g.bot.isSome then some .black else none) → Becomes g g'

theorem Becomes.of_eq {g'' : Game} (h : g.Becomes g') (hposition : g''.position = g'.position)
    (hstatus : g''.status = g'.status) (hbot : g''.bot = g'.bot) : g.Becomes g'' := by
  cases h with
  | same hposition' hstatus' hbot' =>
    exact .same (hposition.trans hposition') (hstatus.trans hstatus') (hbot.trans hbot')
  | moved hm hposition' hstatus' hbot' =>
    refine .moved hm (hposition.trans hposition') ?_ (hbot.trans hbot')
    rw [hstatus, hstatus', hposition]
  | renewed hposition' hstatus' hbot' =>
    exact .renewed (hposition.trans hposition') (hstatus.trans hstatus') (hbot.trans hbot')

theorem becomes_refl (g : Game) : g.Becomes g := .same rfl rfl rfl

theorem becomes_reset (g : Game) : g.Becomes g.reset := .renewed rfl rfl rfl

theorem becomes_finishMove {t : Game} (hposition : t.position = g.position)
    (hstatus : t.status = g.status) (hbot : t.bot = g.bot) (m : Move) :
    g.Becomes (t.finishMove m) := by
  by_cases hm : m ∈ t.position.legalMoves
  · rw [finishMove_of_mem hm]
    exact .moved (hposition ▸ hm) (congrArg (Position.apply · m) hposition) rfl hbot
  · rw [finishMove_of_notMem hm]
    exact .same hposition hstatus hbot

theorem becomes_tryMove (g : Game) (source target : Square) :
    g.Becomes (g.tryMove source target).2 := by
  have htried := g.tried source target
  generalize g.tryMove source target = result at htried
  cases htried with
  | finished | waiting | illegal => exact g.becomes_refl
  | moved => exact becomes_finishMove rfl rfl rfl _
  | waits => exact .same rfl rfl rfl

theorem becomes_promote (g : Game) (kind : PieceKind) : g.Becomes (g.promote kind).2 := by
  unfold promote
  split
  · exact g.becomes_refl
  · split
    · exact g.becomes_refl
    · exact becomes_finishMove (g := g) (t := { g with pending := none }) rfl rfl rfl _

theorem becomes_activate (g : Game) : g.Becomes g.activate := by
  unfold activate
  split
  · exact g.becomes_reset
  split
  · exact g.becomes_refl
  split
  · exact .same rfl rfl rfl
  split
  · exact .same rfl rfl rfl
  split
  · exact g.becomes_refl
  · next source _ =>
    have htried := g.becomes_tryMove source g.cursor
    split
    · next hmoved =>
      rw [hmoved] at htried
      exact htried.of_eq rfl rfl rfl
    · next hrefused =>
      rw [hrefused] at htried
      exact htried

theorem becomes_press (g : Game) (key : Key) : g.Becomes (g.press key) := by
  unfold press
  split
  · unfold pressPromotion
    split
    · exact g.becomes_promote _
    · exact g.becomes_refl
  split
  · exact .same rfl rfl rfl
  · exact .same rfl rfl rfl
  · exact .same rfl rfl rfl
  · exact .same rfl rfl rfl
  · exact g.becomes_activate
  · exact g.becomes_activate
  · split
    · exact g.becomes_reset
    · exact g.becomes_refl
  · exact g.becomes_refl

theorem becomes_tick (g : Game) (dt : Float32) : g.Becomes (g.tick dt) := by
  unfold tick
  split
  · exact g.becomes_refl
  · dsimp only
    split
    · exact .same rfl rfl rfl
    · unfold botMove
      dsimp only
      split
      · exact becomes_finishMove (g := g) (t := { g with
          stream := (pickMove g.position g.stream).2, timer := g.timer + dt }) rfl rfl rfl _
      · exact .same rfl rfl rfl

theorem becomes_perform (g : Game) (call : Call) : g.Becomes (g.perform call) := by
  cases call with
  | press key => exact g.becomes_press key
  | tick dt => exact g.becomes_tick dt
  | tryMove source target => exact g.becomes_tryMove source target
  | promote kind => exact g.becomes_promote kind
  | reset => exact g.becomes_reset

/-- A game against the computer, at a position that legal moves have led to, with the status of
that position. -/
structure Contest (g : Game) : Prop where
  reached : ∃ record, Reached record g.position
  status : g.status = g.position.status
  bot : g.bot = some .black

theorem contest_create (seed : Option UInt64) (free : Stream) : (create true seed free).Contest where
  reached := ⟨[], .start⟩
  status := status_initial.symm
  bot := rfl

theorem Contest.becomes (h : g.Contest) (hbecomes : g.Becomes g') : g'.Contest := by
  cases hbecomes with
  | same hposition hstatus hbot =>
    refine ⟨hposition ▸ h.reached, ?_, hbot.trans h.bot⟩
    rw [hstatus, h.status, hposition]
  | @moved m hm hposition hstatus hbot =>
    obtain ⟨record, hrecord⟩ := h.reached
    refine ⟨⟨record ++ [m], ?_⟩, hstatus, hbot.trans h.bot⟩
    rw [hposition]
    exact hrecord.move (Position.play_of_mem hm)
  | renewed hposition hstatus hbot =>
    rw [h.bot] at hbot
    refine ⟨⟨[], hposition ▸ .start⟩, ?_, hbot⟩
    rw [hstatus, hposition, status_initial]

theorem Contest.run (h : g.Contest) (calls : List Call) : (g.run calls).Contest := by
  induction calls generalizing g with
  | nil => exact h
  | cons call calls ih => exact ih (h.becomes (g.becomes_perform call))

/-- A tick that makes the computer's move: its game is the one in which the move that it picked,
with a queen for any promotion, has been played, and all that is left is the rest of its stream. -/
structure Replies (g : Game) (dt : Float32) (m : Move) : Prop where
  picked : (pickMove g.position g.stream).1 = some m
  legal : m.queening ∈ g.position.legalMoves
  black : (g.position.at? m.source).map (·.side) = some .black
  tick : g.tick dt = { g with stream := (pickMove g.position g.stream).2 }.played m.queening
  status : (g.tick dt).status = (g.tick dt).position.status
  turn : (g.tick dt).position.sideToMove = .white

theorem Contest.replies (h : g.Contest) {dt : Float32} (hturn : g.isBotTurn = true)
    (hover : g.status.isOver = false) (hlate : ¬ g.timer + dt < botDelay) :
    ∃ m, g.Replies dt m := by
  have hblack : g.position.sideToMove = .black := by
    rw [isBotTurn, h.bot, beq_iff_eq, Option.some.injEq] at hturn
    exact hturn.symm
  have hmoves : g.position.legalMoves ≠ [] := by
    rwa [h.status, Position.isOver_status, List.isEmpty_eq_false_iff] at hover
  obtain ⟨record, hrecord⟩ := h.reached
  obtain ⟨m, hm, hpick⟩ := Position.exists_pickMove hmoves g.stream
  have hqueen := (sound_of_reached hrecord).queening_mem hm
  obtain ⟨kind, hat⟩ := (Position.mem_legalMoves_iff.mp hqueen).1.exists_kind
  have htick : g.tick dt =
      { g with stream := (pickMove g.position g.stream).2 }.played m.queening := by
    unfold tick
    rw [if_neg (by simp [hturn, hover]), if_neg hlate]
    exact botMove_of_pick (g := { g with timer := g.timer + dt }) hpick hqueen
  refine ⟨m, hpick, hqueen, ?_, htick, ?_, ?_⟩
  · rw [show g.position.at? m.source = _ from hat, hblack]
    rfl
  · rw [htick]
    rfl
  · rw [htick]
    change (g.position.apply m.queening).sideToMove = .white
    rw [Position.apply_sideToMove hat, hblack]
    rfl

end Game

/-- The computer picks no move exactly where there is none, and else a legal one with fewer than
three better ones. So after any calls, once it is its turn, the game is not over and the delay has
passed, a tick plays one legal black move, and white is to move, whether a promotion of the host's
is waited for or not. -/
theorem computer_replies :
    (∀ (p : Position) (stream : Chance.Stream),
      ((pickMove p stream).1 = none ↔ p.legalMoves = []) ∧
      ∀ m, (pickMove p stream).1 = some m → p.AmongBest choices m) ∧
    ∀ (seed : Option UInt64) (free : Chance.Stream) (calls : List Call) (dt : Float32),
      ((Game.create true seed free).run calls).isBotTurn = true →
      ((Game.create true seed free).run calls).status.isOver = false →
      ¬ ((Game.create true seed free).run calls).timer + dt < Game.botDelay →
      ∃ m, ((Game.create true seed free).run calls).Replies dt m := by
  refine ⟨fun p stream => ⟨Position.pickMove_eq_none_iff, fun m hpick => ?_⟩, ?_⟩
  · exact Position.amongBest_of_mem_take (Position.mem_take_of_pickMove hpick)
  · intro seed free calls dt hturn hover hlate
    exact ((Game.contest_create seed free).run calls).replies hturn hover hlate

def kingsPawn : Move := ⟨⟨4, 1⟩, ⟨4, 3⟩, none⟩

/-- The computer answers the host's first move within half a second. -/
theorem computer_replies_double_step :
    ((Game.create true none default).run [Call.ofMove kingsPawn]).isBotTurn = true ∧
      ((Game.create true none default).run [Call.ofMove kingsPawn]).status.isOver = false ∧
      ¬ ((Game.create true none default).run [Call.ofMove kingsPawn]).timer + 0.5 < Game.botDelay ∧
      ∃ m, ((Game.create true none default).run [Call.ofMove kingsPawn]).Replies 0.5 m := by
  have hcontest := (Game.contest_create none default).run [Call.ofMove kingsPawn]
  have hplay : Position.initial.playable [kingsPawn] = true := by decide +kernel
  have hrun := (Game.inOrder_create true none default).run_ofMove rfl hplay
  rw [List.map_singleton, List.foldl_cons, List.foldl_nil] at hrun
  have hanswer : ⟨⟨4, 6⟩, ⟨4, 4⟩, none⟩ ∈
      ((Game.create true none default).played kingsPawn).position.legalMoves :=
    Position.mem_legalMoves_of_mayPlay (by decide +kernel)
  have hturn : ((Game.create true none default).run [Call.ofMove kingsPawn]).isBotTurn = true := by
    rw [hrun]
    decide +kernel
  have hover :
      ((Game.create true none default).run [Call.ofMove kingsPawn]).status.isOver = false := by
    rw [hcontest.status, hrun]
    exact Position.not_isOver_of_mem hanswer
  have hlate :
      ¬ ((Game.create true none default).run [Call.ofMove kingsPawn]).timer + 0.5 < Game.botDelay := by
    rw [hrun]
    decide +kernel
  exact ⟨hturn, hover, hlate, computer_replies.2 none default _ 0.5 hturn hover hlate⟩

end PocketTerminal.Chess
