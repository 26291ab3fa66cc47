import PocketTerminal.Chess.Game
import PocketTerminal.Proofs.Chess.Promotions

/-! # Games under every call

A game is driven by keys, by its host and by time. Its position is always one that legal moves
have led to, its status is that of the position, and a move that waits for its promotion is
legal, unless time has made the computer's move in the meantime. -/
namespace PocketTerminal.Chess

inductive Call where
  | press (key : Key)
  | tick (dt : Float32)
  | tryMove (source target : Square)
  | promote (kind : PieceKind)
  | reset

def Call.ofMove (m : Move) : Call := .tryMove m.source m.target

namespace Position

variable {p : Position} {m : Move}

theorem isOver_status : p.status.isOver = p.legalMoves.isEmpty := by
  unfold status
  dsimp only
  cases p.legalMoves.isEmpty <;> cases p.inCheck p.sideToMove <;> rfl

theorem not_isOver_of_mem (hm : m ∈ p.legalMoves) : p.status.isOver = false := by
  rw [isOver_status, List.isEmpty_eq_false_iff]
  exact List.ne_nil_of_mem hm

/-- Whether a move is legal, found without the other legal moves. -/
def mayPlay (p : Position) (m : Move) : Bool :=
  (p.at? m.source).any (fun piece => piece.side == p.sideToMove) &&
    (p.pseudoMovesFrom m.source).contains m && !(p.apply m).inCheck p.sideToMove

theorem mem_legalMoves_of_mayPlay (h : p.mayPlay m = true) : m ∈ p.legalMoves := by
  simp only [mayPlay, Bool.and_eq_true, List.contains_iff_mem] at h
  obtain ⟨⟨hown, hpseudo⟩, hsafe⟩ := h
  refine List.mem_filter.mpr ⟨List.mem_flatMap.mpr ⟨m.source, ?_, hpseudo⟩, hsafe⟩
  exact List.mem_filter.mpr ⟨Square.mem_all m.source, hown⟩

def playable (p : Position) : List Move → Bool
  | [] => true
  | m :: moves => m.promotion.isNone && p.mayPlay m && (p.apply m).playable moves

end Position

namespace Game

variable {g g' : Game} {call : Call} {bot : Bool} {source target : Square} {kind : PieceKind}
  {m : Move}

def perform (g : Game) : Call → Game
  | .press key => g.press key
  | .tick dt => g.tick dt
  | .tryMove source target => (g.tryMove source target).2
  | .promote kind => (g.promote kind).2
  | .reset => g.reset

def run (g : Game) (calls : List Call) : Game := calls.foldl perform g

def interruptedBy (g : Game) : Call → Bool
  | .tick dt =>
    g.pending.isSome && g.isBotTurn && !g.status.isOver && !decide (g.timer + dt < botDelay)
  | _ => false

def uninterrupted (g : Game) : List Call → Bool
  | [] => true
  | call :: calls => !g.interruptedBy call && (g.perform call).uninterrupted calls

theorem run_concat (g : Game) (calls : List Call) (call : Call) :
    g.run (calls ++ [call]) = (g.run calls).perform call := List.foldl_concat ..

theorem interruptedBy_tick_iff {dt : Float32} : g.interruptedBy (.tick dt) = true ↔
    g.pending.isSome = true ∧ g.isBotTurn = true ∧ g.status.isOver = false ∧
      ¬ g.timer + dt < botDelay := by
  simp only [interruptedBy, Bool.and_eq_true, Bool.not_eq_true', decide_eq_false_iff_not, and_assoc]

theorem uninterrupted_concat {calls : List Call} : g.uninterrupted (calls ++ [call]) =
    (g.uninterrupted calls && !(g.run calls).interruptedBy call) := by
  induction calls generalizing g with
  | nil => simp [uninterrupted, run]
  | cons first calls ih =>
    rw [List.cons_append, uninterrupted, uninterrupted, ih, Bool.and_assoc]
    rfl

def played (g : Game) (m : Move) : Game :=
  { g with
    position := g.position.apply m
    lastMove := some m
    status := (g.position.apply m).status
    timer := 0.0 }

theorem finishMove_of_mem (hm : m ∈ g.position.legalMoves) : g.finishMove m = g.played m := by
  rw [finishMove, Position.play_of_mem hm]
  rfl

theorem finishMove_of_notMem (hm : m ∉ g.position.legalMoves) : g.finishMove m = g := by
  rw [finishMove, Position.play_of_notMem hm]

structure InOrder (bot : Bool) (g : Game) : Prop where
  reached : ∃ record, Reached record g.position
  status : g.status = g.position.status
  /-- The move that waits for its promotion is legal. -/
  promotes : ∀ source target, g.pending = some (source, target) →
    ∃ kind, ⟨source, target, some kind⟩ ∈ g.position.legalMoves
  /-- A game that was set up without the computer is played without it. -/
  human : bot = false → g.bot = none

theorem status_initial : Position.initial.status = .playing := by decide +kernel

theorem inOrder_create (bot : Bool) (seed : Option UInt64) (free : Chance.Stream) :
    (create bot seed free).InOrder bot where
  reached := ⟨[], .start⟩
  status := status_initial.symm
  promotes _ _ h := nomatch h
  human h := by simp [create, h]

theorem InOrder.reset (h : g.InOrder bot) : g.reset.InOrder bot where
  reached := ⟨[], .start⟩
  status := status_initial.symm
  promotes _ _ h := nomatch h
  human hbot := by simp [Game.reset, create, h.human hbot]

theorem InOrder.of_eq (h : g.InOrder bot) (hposition : g'.position = g.position)
    (hstatus : g'.status = g.status) (hpending : g'.pending = g.pending) (hbot : g'.bot = g.bot) :
    g'.InOrder bot where
  reached := hposition ▸ h.reached
  status := by rw [hposition, hstatus, h.status]
  promotes := by
    rw [hposition, hpending]
    exact h.promotes
  human := hbot ▸ h.human

theorem InOrder.finishMove (h : g.InOrder bot) (hnone : g.pending = none) (m : Move) :
    (g.finishMove m).InOrder bot := by
  by_cases hm : m ∈ g.position.legalMoves
  · rw [finishMove_of_mem hm]
    refine ⟨?_, rfl, fun source target hpending => ?_, h.human⟩
    · obtain ⟨record, hrecord⟩ := h.reached
      exact ⟨record ++ [m], hrecord.move (Position.play_of_mem hm)⟩
    · rw [played, hnone] at hpending
      cases hpending
  · rw [finishMove_of_notMem hm]
    exact h

end Game

namespace Position

variable {p : Position} {source target : Square} {m m' : Move}

def candidates (p : Position) (source target : Square) : List Move :=
  (p.legalMovesFrom source).filter fun m => m.target == target

theorem mem_candidates_iff : m ∈ p.candidates source target ↔
    m ∈ p.legalMoves ∧ m.source = source ∧ m.target = target := by
  simp only [candidates, legalMovesFrom, List.mem_filter, beq_iff_eq, and_assoc]

theorem exists_promotion (hm : m ∈ p.candidates source target) (hpromotes : m.promotion ≠ none) :
    ∃ kind, ⟨source, target, some kind⟩ ∈ p.legalMoves := by
  obtain ⟨hlegal, rfl, rfl⟩ := mem_candidates_iff.mp hm
  obtain ⟨kind, hkind⟩ := Option.ne_none_iff_exists'.mp hpromotes
  exact ⟨kind, hkind ▸ hlegal⟩

/-- Several moves between two squares are promotions. -/
theorem exists_promotion_of_several {rest : List Move}
    (h : p.candidates source target = m :: m' :: rest) :
    ∃ kind, ⟨source, target, some kind⟩ ∈ p.legalMoves := by
  have hnodup : (p.candidates source target).Nodup := (p.legalMoves_nodup.filter _).filter _
  have hmem : m ∈ p.candidates source target := by simp [h]
  have hmem' : m' ∈ p.candidates source target := by simp [h]
  have hne : m ≠ m' := by
    rw [h, List.nodup_cons] at hnodup
    intro he
    exact hnodup.1 (he ▸ List.mem_cons_self)
  obtain ⟨-, hsource, htarget⟩ := mem_candidates_iff.mp hmem
  obtain ⟨-, hsource', htarget'⟩ := mem_candidates_iff.mp hmem'
  rcases Move.promotion_ne_none (hsource.trans hsource'.symm) (htarget.trans htarget'.symm) hne with
    hpromotes | hpromotes
  · exact exists_promotion hmem hpromotes
  · exact exists_promotion hmem' hpromotes

end Position

namespace Game

variable {g : Game} {call : Call} {bot : Bool} {source target : Square} {kind : PieceKind}
  {m : Move}

/-- What an attempted move comes to. -/
inductive Tried (g : Game) (source target : Square) : Bool × Game → Prop
  | finished : g.status.isOver = true → Tried g source target (false, g)
  | waiting : g.pending.isSome = true → Tried g source target (false, g)
  | illegal : (∀ m ∈ g.position.legalMoves, m.source = source → m.target ≠ target) →
      Tried g source target (false, g)
  | moved {m : Move} : g.pending = none → m ∈ g.position.legalMoves → m.source = source →
      m.target = target → m.promotion = none → Tried g source target (true, g.finishMove m)
  | waits {kind : PieceKind} : g.pending = none →
      ⟨source, target, some kind⟩ ∈ g.position.legalMoves →
      Tried g source target (true, { g with pending := some (source, target) })

theorem tried (g : Game) (source target : Square) :
    g.Tried source target (g.tryMove source target) := by
  unfold tryMove
  split
  · next hguard =>
    rcases Bool.or_eq_true_iff.mp hguard with hover | hwaits
    · exact .finished hover
    · exact .waiting hwaits
  · next hguard =>
    have hnone : g.pending = none := by
      rw [Bool.or_eq_true, not_or, Bool.not_eq_true, Bool.not_eq_true] at hguard
      exact Option.isNone_iff_eq_none.mp (Option.isSome_eq_false_iff.mp hguard.2)
    split
    · next hnil =>
      refine .illegal fun m hm hsource htarget => ?_
      have hmem : m ∈ g.position.candidates source target :=
        Position.mem_candidates_iff.mpr ⟨hm, hsource, htarget⟩
      rw [Position.candidates, hnil] at hmem
      cases hmem
    · next m hone =>
      have hmem : m ∈ g.position.candidates source target := by simp [Position.candidates, hone]
      split
      · next hpromotion =>
        obtain ⟨hlegal, hsource, htarget⟩ := Position.mem_candidates_iff.mp hmem
        exact .moved hnone hlegal hsource htarget (Option.isNone_iff_eq_none.mp hpromotion)
      · next hpromotes =>
        obtain ⟨kind, hlegal⟩ := Position.exists_promotion hmem (by simpa using hpromotes)
        exact .waits hnone hlegal
    · next hnil hone =>
      rcases hseveral : g.position.candidates source target with _ | ⟨m, _ | ⟨m', rest⟩⟩
      · exact absurd hseveral hnil
      · exact absurd hseveral (hone m)
      · obtain ⟨kind, hlegal⟩ := Position.exists_promotion_of_several hseveral
        exact .waits hnone hlegal

theorem InOrder.tryMove_of_mem (h : g.InOrder bot) (hnone : g.pending = none)
    (hm : m ∈ g.position.legalMoves) (hpromotion : m.promotion = none) :
    g.tryMove m.source m.target = (true, g.played m) := by
  have htried := g.tried m.source m.target
  generalize g.tryMove m.source m.target = result at htried ⊢
  cases htried with
  | finished hover =>
    rw [h.status, Position.not_isOver_of_mem hm] at hover
    cases hover
  | waiting hwaits =>
    rw [hnone] at hwaits
    cases hwaits
  | illegal hall => exact absurd rfl (hall m hm rfl)
  | @moved m' _ hm' hsource htarget hpromotion' =>
    obtain rfl : m' = m := by
      cases m
      cases m'
      dsimp only at hsource htarget hpromotion hpromotion'
      rw [hsource, htarget, hpromotion, hpromotion']
    rw [finishMove_of_mem hm']
  | waits _ hlegal =>
    -- Were a promotion legal between these squares, this move would be one.
    obtain ⟨hmoves, -⟩ := Position.mem_legalMoves_iff.mp hm
    obtain ⟨hmoves', -⟩ := Position.mem_legalMoves_iff.mp hlegal
    exact absurd hpromotion (hmoves.promotes_of_promotes hmoves' rfl rfl (by simp))

theorem InOrder.tryMove_of_promotion (h : g.InOrder bot) (hnone : g.pending = none)
    (hm : ⟨source, target, some kind⟩ ∈ g.position.legalMoves) :
    g.tryMove source target = (true, { g with pending := some (source, target) }) := by
  have htried := g.tried source target
  generalize g.tryMove source target = result at htried ⊢
  cases htried with
  | finished hover =>
    rw [h.status, Position.not_isOver_of_mem hm] at hover
    cases hover
  | waiting hwaits =>
    rw [hnone] at hwaits
    cases hwaits
  | illegal hall => exact absurd rfl (hall _ hm rfl)
  | moved _ hm' hsource htarget hpromotion =>
    obtain ⟨hmoves, -⟩ := Position.mem_legalMoves_iff.mp hm'
    obtain ⟨hmoves', -⟩ := Position.mem_legalMoves_iff.mp hm
    exact absurd hpromotion (hmoves.promotes_of_promotes hmoves' hsource htarget (by simp))
  | waits => rfl

theorem InOrder.tryMove (h : g.InOrder bot) (source target : Square) :
    (g.tryMove source target).2.InOrder bot := by
  have htried := g.tried source target
  generalize g.tryMove source target = result at htried
  cases htried with
  | finished | waiting | illegal => exact h
  | moved hnone => exact h.finishMove hnone _
  | waits hnone hlegal =>
    refine ⟨h.reached, h.status, fun source' target' hpending => ?_, h.human⟩
    cases hpending
    exact ⟨_, hlegal⟩

theorem InOrder.promote (h : g.InOrder bot) (kind : PieceKind) : (g.promote kind).2.InOrder bot := by
  unfold Game.promote
  split
  · exact h
  · split
    · exact h
    · have hnone : InOrder bot { g with pending := none } :=
        ⟨h.reached, h.status, (fun _ _ hpending => nomatch hpending), h.human⟩
      exact hnone.finishMove rfl _

theorem InOrder.activate (h : g.InOrder bot) : g.activate.InOrder bot := by
  unfold Game.activate
  split
  · exact h.reset
  split
  · exact h
  split
  · exact h.of_eq rfl rfl rfl rfl
  split
  · exact h.of_eq rfl rfl rfl rfl
  split
  · exact h
  · next source _ =>
    have htried := h.tryMove source g.cursor
    split
    · next hmoved =>
      rw [hmoved] at htried
      exact htried.of_eq rfl rfl rfl rfl
    · next hrefused =>
      rw [hrefused] at htried
      exact htried

theorem InOrder.press (h : g.InOrder bot) (key : Key) : (g.press key).InOrder bot := by
  unfold Game.press
  split
  · unfold pressPromotion
    split
    · exact h.promote _
    · exact h
  split
  · exact h.of_eq rfl rfl rfl rfl
  · exact h.of_eq rfl rfl rfl rfl
  · exact h.of_eq rfl rfl rfl rfl
  · exact h.of_eq rfl rfl rfl rfl
  · exact h.activate
  · exact h.activate
  · split
    · exact h.reset
    · exact h
  · exact h

theorem InOrder.botMove (h : g.InOrder bot) (hnone : g.pending = none) : g.botMove.InOrder bot := by
  have hstream : InOrder bot { g with stream := (pickMove g.position g.stream).2 } :=
    h.of_eq rfl rfl rfl rfl
  unfold Game.botMove
  dsimp only
  split
  · exact hstream.finishMove hnone _
  · exact hstream

/-- A tick that does not interrupt a promotion either leaves all but the timer alone or comes
when no promotion is waited for. -/
theorem tick_cases (dt : Float32) (hquiet : g.interruptedBy (.tick dt) = false) :
    (∃ timer, g.tick dt = { g with timer := timer }) ∨
      g.pending = none ∧ g.tick dt = { g with timer := g.timer + dt }.botMove := by
  unfold tick
  by_cases hidle : (!g.isBotTurn || g.status.isOver) = true
  · rw [if_pos hidle]
    exact .inl ⟨g.timer, rfl⟩
  · rw [if_neg hidle]
    dsimp only
    by_cases hearly : g.timer + dt < botDelay
    · rw [if_pos hearly]
      exact .inl ⟨g.timer + dt, rfl⟩
    · rw [if_neg hearly]
      refine .inr ⟨?_, rfl⟩
      simp only [Bool.or_eq_true, Bool.not_eq_true', not_or, Bool.not_eq_false, Bool.not_eq_true]
        at hidle
      simpa [interruptedBy, hidle.1, hidle.2, hearly] using hquiet

theorem InOrder.tick (h : g.InOrder bot) {dt : Float32} (hquiet : g.interruptedBy (.tick dt) = false) :
    (g.tick dt).InOrder bot := by
  rcases tick_cases dt hquiet with ⟨timer, htick⟩ | ⟨hnone, htick⟩
  · rw [htick]
    exact h.of_eq rfl rfl rfl rfl
  · have hlater : InOrder bot { g with timer := g.timer + dt } := h.of_eq rfl rfl rfl rfl
    rw [htick]
    exact hlater.botMove hnone

theorem InOrder.perform (h : g.InOrder bot) (hquiet : g.interruptedBy call = false) :
    (g.perform call).InOrder bot := by
  cases call with
  | press key => exact h.press key
  | tick dt => exact h.tick hquiet
  | tryMove source target => exact h.tryMove source target
  | promote kind => exact h.promote kind
  | reset => exact h.reset

/-- Without the computer nothing interrupts a promotion. -/
theorem InOrder.quiet (h : g.InOrder bot) (hquiet : bot = true → g.interruptedBy call = false) :
    g.interruptedBy call = false := by
  cases bot with
  | true => exact hquiet rfl
  | false =>
    cases call with
    | tick dt => simp [interruptedBy, isBotTurn, h.human rfl]
    | press | tryMove | promote | reset => rfl

theorem InOrder.run (h : g.InOrder bot) {calls : List Call}
    (hquiet : bot = true → g.uninterrupted calls = true) : (g.run calls).InOrder bot := by
  induction calls generalizing g with
  | nil => exact h
  | cons call calls ih =>
    simp only [uninterrupted, Bool.and_eq_true, Bool.not_eq_true'] at hquiet
    exact ih (h.perform (h.quiet fun hbot => (hquiet hbot).1)) fun hbot => (hquiet hbot).2

/-- Legal moves that the host makes one after the other are all played. -/
theorem InOrder.run_ofMove (h : g.InOrder bot) (hnone : g.pending = none) {moves : List Move}
    (hplay : g.position.playable moves = true) :
    g.run (moves.map Call.ofMove) = moves.foldl played g := by
  induction moves generalizing g with
  | nil => rfl
  | cons m moves ih =>
    simp only [Position.playable, Bool.and_eq_true, Option.isNone_iff_eq_none] at hplay
    obtain ⟨⟨hpromotion, hmay⟩, hplay⟩ := hplay
    have hm := Position.mem_legalMoves_of_mayPlay hmay
    have hplayed : g.perform (Call.ofMove m) = g.played m :=
      congrArg Prod.snd (h.tryMove_of_mem hnone hm hpromotion)
    have hnext : (g.played m).InOrder bot := hplayed ▸ h.perform rfl
    rw [List.map_cons, Game.run, List.foldl_cons, hplayed, List.foldl_cons]
    exact ih hnext hnone hplay

end Game
end PocketTerminal.Chess
