import PocketTerminal.Proofs.Chess.Preservation

/-! # Games

What holds of every position that legal moves lead to from the start: it is sound, what it
keeps of the game is what the record of moves says, and its legal moves are those of the rules. -/
namespace PocketTerminal.Chess

open Rules

/-- The position that a record of moves leads to, each of them played with success. -/
inductive Reached : List Move → Position → Prop
  | start : Reached [] .initial
  | move {record : List Move} {p q : Position} {m : Move} : Reached record p →
      p.play m = (true, q) → Reached (record ++ [m]) q

namespace Position

variable {p q : Position} {last : Option Move} {side : Side} {s : Square} {m : Move}

theorem at?_initial_king_iff : initial.at? s = some ⟨.king, side⟩ ↔ s = kingHome side := by
  have hall : ∀ s ∈ Square.all, initial.at? s = some ⟨.king, side⟩ ↔ s = kingHome side := by
    cases side <;> decide +kernel
  exact hall s (Square.mem_all s)

theorem at?_initial_rookHome (side : Side) (kingSide : Bool) :
    initial.at? (rookHome side kingSide) = some ⟨.rook, side⟩ := by
  cases side <;> cases kingSide <;> decide +kernel

theorem rank_of_initial_pawn (h : initial.at? s = some ⟨.pawn, side⟩) :
    s.rank ≠ 0 ∧ s.rank ≠ 7 := by
  have hall : ∀ s ∈ Square.all, initial.at? s = some ⟨.pawn, side⟩ → s.rank ≠ 0 ∧ s.rank ≠ 7 := by
    cases side <;> decide +kernel
  exact hall s (Square.mem_all s) h

theorem enPassant_initial : initial.enPassant = none := rfl

theorem get_initial (side : Side) (kingSide : Bool) : initial.castling.get side kingSide = true := by
  cases side <;> cases kingSide <;> rfl

theorem sound_initial : initial.Sound none := by
  constructor
  · intro side
    exact ⟨kingHome side, at?_initial_king_iff.mpr rfl, fun s => at?_initial_king_iff.mp⟩
  · decide +kernel
  · intro side kingSide _
    exact ⟨at?_initial_king_iff.mpr rfl, at?_initial_rookHome side kingSide⟩
  · intro s hs
    rw [enPassant_initial] at hs
    cases hs
  · intro s side
    exact rank_of_initial_pawn
  · intro side
    cases side <;> decide +kernel
  · intro side
    cases side <;> decide +kernel

theorem mem_legalMoves_iff : m ∈ p.legalMoves ↔
    Moves p.at? (p.past p.sideToMove) p.sideToMove m ∧ (p.apply m).inCheck p.sideToMove = false := by
  unfold legalMoves
  rw [List.mem_filter, mem_pseudoMoves_iff, Bool.not_eq_true']

theorem play_of_mem (h : m ∈ p.legalMoves) : p.play m = (true, p.apply m) :=
  if_pos (List.contains_iff_mem.mpr h)

theorem play_of_notMem (h : m ∉ p.legalMoves) : p.play m = (false, p) :=
  if_neg fun hmem => h (List.contains_iff_mem.mp hmem)

theorem play_eq_iff : p.play m = (true, q) ↔ m ∈ p.legalMoves ∧ p.apply m = q := by
  by_cases h : m ∈ p.legalMoves
  · rw [play_of_mem h, Prod.mk.injEq]
    simp [h]
  · rw [play_of_notMem h, Prod.mk.injEq]
    simp [h]

/-- What the position keeps of the game is what the record of its moves says. -/
structure Recorded (record : List Move) (p : Position) : Prop where
  unmoved : ∀ side kingSide, p.castling.get side kingSide = true ↔
    (Past.ofRecord record p.at? side).unmoved kingSide
  passed : ∀ s, p.enPassant = some s ↔ (Past.ofRecord record p.at? p.sideToMove).passed s

theorem recorded_initial : initial.Recorded [] := by
  constructor
  · intro side kingSide
    refine iff_of_true (get_initial side kingSide) fun m hm => ?_
    cases hm
  · intro s
    rw [enPassant_initial]
    refine iff_of_false (by simp) ?_
    rintro ⟨m, hlast, -⟩
    cases hlast

theorem Recorded.past_eq {record : List Move} (h : p.Recorded record) :
    p.past p.sideToMove = Past.ofRecord record p.at? p.sideToMove := by
  have hpassed : (p.past p.sideToMove).passed =
      (Past.ofRecord record p.at? p.sideToMove).passed := by
    funext s
    exact propext (h.passed s)
  have hunmoved : (p.past p.sideToMove).unmoved =
      (Past.ofRecord record p.at? p.sideToMove).unmoved := by
    funext kingSide
    exact propext (h.unmoved p.sideToMove kingSide)
  cases hleft : p.past p.sideToMove
  cases hright : Past.ofRecord record p.at? p.sideToMove
  rw [hleft, hright] at hpassed hunmoved
  rw [Past.mk.injEq]
  exact ⟨hpassed, hunmoved⟩

/-- A right that is still set has its king at home, so that no move of the other side can have
ended there. -/
theorem Recorded.apply {record : List Move} (h : p.Recorded record) (hs : p.Sound last)
    (hm : Moves p.at? (p.past p.sideToMove) p.sideToMove m) :
    (p.apply m).Recorded (record ++ [m]) := by
  obtain ⟨kind, hat⟩ := hm.exists_kind
  constructor
  · intro side kingSide
    rw [get_apply_iff hat, h.unmoved side kingSide]
    constructor
    · rintro ⟨hrecord, ⟨hking, hrook⟩, -, htarget⟩ m' hm'
      rcases List.mem_append.mp hm' with hm' | hm'
      · exact hrecord m' hm'
      · rw [List.mem_singleton.mp hm']
        exact ⟨hking, hrook, htarget⟩
    · intro hall
      have hrecord : (Past.ofRecord record p.at? side).unmoved kingSide :=
        fun m' hm' => hall m' (List.mem_append_left _ hm')
      obtain ⟨hking, hrook, htarget⟩ := hall m (List.mem_append_right _ (List.mem_singleton.mpr rfl))
      -- The record does not ask where the king stood: a move that ends there would take it.
      refine ⟨hrecord, ⟨hking, hrook⟩, fun he => ?_, htarget⟩
      have hatKing := (hs.castling side kingSide ((h.unmoved side kingSide).mpr hrecord)).1
      rw [← he] at hatKing
      exact hs.target_ne_king hm hatKing
  · intro s
    constructor
    · intro hpassed
      have hjust := justPassed_apply hm hpassed
      rw [apply_enPassant hat, passedSquare_eq_some_iff hm hat] at hpassed
      obtain ⟨-, hdouble, -⟩ := hpassed
      refine ⟨m, List.getLast?_concat, hjust.pawn, ?_, hjust.near⟩
      rwa [apply_sideToMove hat, Side.other_other]
    · rintro ⟨m', hlast, hpawn, hdouble, hnear⟩
      rw [List.getLast?_concat, Option.some.injEq] at hlast
      subst hlast
      rw [apply_sideToMove hat, Side.other_other] at hpawn hdouble hnear
      rw [at?_apply_eq hat, if_pos rfl, Option.some.injEq] at hpawn
      have hkind : kind = .pawn := eq_pawn_of_arriving (by rw [hpawn])
      rw [apply_enPassant hat, passedSquare_eq_some_iff hm hat]
      exact ⟨hkind, hdouble, hnear⟩

theorem Sound.safe_iff (h : p.Sound last)
    (hm : Moves p.at? (p.past p.sideToMove) p.sideToMove m) :
    (p.apply m).inCheck p.sideToMove = false ↔
      ∀ k, after p.at? m k = some ⟨.king, p.sideToMove⟩ →
        ¬ Attacked (after p.at? m) p.sideToMove.other k := by
  rw [← Bool.not_eq_true, inCheck_iff (h.king_apply hm p.sideToMove), at?_apply hm, not_exists]
  exact forall_congr' fun k => not_and

end Position

theorem sound_of_reached {record : List Move} {p : Position} (h : Reached record p) :
    p.Sound record.getLast? := by
  induction h with
  | start => exact Position.sound_initial
  | move _ hplay ih =>
    obtain ⟨hlegal, rfl⟩ := Position.play_eq_iff.mp hplay
    obtain ⟨hm, hsafe⟩ := Position.mem_legalMoves_iff.mp hlegal
    rw [List.getLast?_concat]
    exact ih.apply hm hsafe

theorem recorded_of_reached {record : List Move} {p : Position} (h : Reached record p) :
    p.Recorded record := by
  induction h with
  | start => exact Position.recorded_initial
  | move hreached hplay ih =>
    obtain ⟨hlegal, rfl⟩ := Position.play_eq_iff.mp hplay
    obtain ⟨hm, -⟩ := Position.mem_legalMoves_iff.mp hlegal
    exact ih.apply (sound_of_reached hreached) hm

theorem reached_double_step :
    Reached [⟨⟨4, 1⟩, ⟨4, 3⟩, none⟩] (Position.initial.apply ⟨⟨4, 1⟩, ⟨4, 3⟩, none⟩) :=
  .move .start (Position.play_of_mem (by decide +kernel))

theorem Reached.sound {record : List Move} {p : Position} (h : Reached record p) :
    p.Sound record.getLast? ∧
      ∀ m, (p.play m).2.count (fun _ => true) ≤ p.count (fun _ => true) := by
  have hsound := sound_of_reached h
  refine ⟨hsound, fun m => ?_⟩
  by_cases hlegal : m ∈ p.legalMoves
  · obtain ⟨hm, -⟩ := Position.mem_legalMoves_iff.mp hlegal
    obtain ⟨kind, hat⟩ := hm.exists_kind
    rw [Position.play_of_mem hlegal]
    exact hsound.count_apply_le hm hat fun _ => rfl
  · rw [Position.play_of_notMem hlegal]

theorem Reached.sound_double_step : ∃ p, Reached [⟨⟨4, 1⟩, ⟨4, 3⟩, none⟩] p ∧
    p.Sound (some ⟨⟨4, 1⟩, ⟨4, 3⟩, none⟩) ∧
      ∀ m, (p.play m).2.count (fun _ => true) ≤ p.count (fun _ => true) :=
  ⟨_, reached_double_step, Reached.sound reached_double_step⟩

/-- The legal moves are those that the rules allow after the moves of the record, each once. -/
theorem Reached.legalMoves_exact {record : List Move} {p : Position} (h : Reached record p) :
    p.legalMoves.Nodup ∧ ∀ m, m ∈ p.legalMoves ↔
      Legal p.at? (Past.ofRecord record p.at? p.sideToMove) p.sideToMove m := by
  refine ⟨p.legalMoves_nodup, fun m => ?_⟩
  have hsound := sound_of_reached h
  rw [Position.mem_legalMoves_iff, ← (recorded_of_reached h).past_eq]
  constructor
  · rintro ⟨hm, hsafe⟩
    exact ⟨hm, (hsound.safe_iff hm).mp hsafe⟩
  · rintro ⟨hm, hsafe⟩
    exact ⟨hm, (hsound.safe_iff hm).mpr hsafe⟩

theorem Reached.legalMoves_exact_double_step : ∃ p, Reached [⟨⟨4, 1⟩, ⟨4, 3⟩, none⟩] p ∧
    p.legalMoves.Nodup ∧ ∀ m, m ∈ p.legalMoves ↔
      Legal p.at? (Past.ofRecord [⟨⟨4, 1⟩, ⟨4, 3⟩, none⟩] p.at? p.sideToMove) p.sideToMove m :=
  ⟨_, reached_double_step, Reached.legalMoves_exact reached_double_step⟩

end PocketTerminal.Chess
