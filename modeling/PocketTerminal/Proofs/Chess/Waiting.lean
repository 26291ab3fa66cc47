import PocketTerminal.Proofs.Chance.Draws
import PocketTerminal.Proofs.Chess.Calls

/-! # Promotions that are waited for

While a pawn waits on its way to the last rank, the choice of its promotion is the next move,
and each of the four choices is legal. Time can break in: where the host has moved the
computer's pawn, the computer moves all the same, and the promotion that is still waited for
has no move left to complete. -/
namespace PocketTerminal.Chess

def Call.settles : Call → Bool
  | .press key => (key.lowerChar.bind PieceKind.ofPromotionKey).isSome
  | .promote _ | .reset => true
  | .tick _ | .tryMove .. => false

/-- The move that the computer makes of the one it has picked: it promotes to a queen only. -/
def Move.queening (m : Move) : Move := { m with promotion := m.promotion.map fun _ => .queen }

namespace Position

variable {p : Position} {last : Option Move} {m : Move} {s : Square} {kind : PieceKind}

theorem Sound.queening_mem (h : p.Sound last) (hm : m ∈ p.legalMoves) :
    m.queening ∈ p.legalMoves := by
  obtain ⟨source, target, promotion⟩ := m
  cases promotion with
  | none => exact hm
  | some kind =>
    have hkind : .queen ∈ PieceKind.promotions := by simp [PieceKind.promotions]
    exact h.promoting_mem hm (by simp) hkind

/-- Where a side had a piece before its move, the other side has none after it. -/
theorem source_ne_of_apply {m' : Move} (hm : m ∈ p.legalMoves)
    (hs : p.at? s = some ⟨kind, p.sideToMove⟩) (hm' : m' ∈ (p.apply m).legalMoves) :
    m'.source ≠ s := by
  rintro rfl
  have hmoves := (mem_legalMoves_iff.mp hm).1
  obtain ⟨_, hat⟩ := hmoves.exists_kind
  obtain ⟨other, hother⟩ := (mem_legalMoves_iff.mp hm').1.exists_kind
  rw [apply_sideToMove hat] at hother
  have hside {kind : PieceKind} {after : Option Piece} (hafter : after = some ⟨kind, p.sideToMove⟩)
      (h : after = some ⟨other, p.sideToMove.other⟩) : False := by
    rw [hafter] at h
    exact p.sideToMove.other_ne (congrArg Piece.side (Option.some_inj.mp h)).symm
  have houtcome := outcome_apply hmoves m'.source
  generalize (p.apply m).at? m'.source = after at houtcome hother
  -- Whatever the move does to the square, a piece that is there afterwards is the mover's.
  cases houtcome with
  | arrives => exact hside rfl hother
  | leaves => cases hother
  | stays => exact hside hs hother
  | passed => cases hother
  | rookArrives => exact hside rfl hother
  | rookLeaves => cases hother

theorem ranked_perm (p : Position) : (ranked p).Perm p.legalMoves := List.mergeSort_perm _ _

/-- The computer finds a legal move where there is one. -/
theorem exists_pickMove (hne : p.legalMoves ≠ []) (stream : Chance.Stream) :
    ∃ m ∈ p.legalMoves, (pickMove p stream).1 = some m := by
  have hbest : (ranked p).take choices ≠ [] := by
    intro hnil
    rcases List.take_eq_nil_iff.mp hnil with hnone | hranked
    · exact absurd hnone (by decide)
    · have hperm := ranked_perm p
      rw [hranked] at hperm
      exact hne hperm.nil_eq.symm
  obtain ⟨m, hm, hchoose⟩ := Chance.Stream.exists_choose hbest stream
  refine ⟨m, (ranked_perm p).subset (List.mem_of_mem_take hm), ?_⟩
  unfold pickMove
  rw [if_neg (by simpa using hbest)]
  exact hchoose

end Position

namespace Game

variable {g : Game} {call : Call} {bot : Bool} {source target : Square} {kind : PieceKind}
  {m : Move}

/-- Only a choice or a new game changes the position, unless the computer moves. -/
theorem position_perform (hwaits : g.pending.isSome = true) (hsettles : call.settles = false)
    (hquiet : g.interruptedBy call = false) : (g.perform call).position = g.position := by
  cases call with
  | press key =>
    have hkey : key.lowerChar.bind PieceKind.ofPromotionKey = none := by
      simpa [Call.settles] using hsettles
    change (g.press key).position = g.position
    unfold press
    rw [if_pos hwaits, pressPromotion, hkey]
  | tick dt =>
    rcases tick_cases dt hquiet with ⟨timer, htick⟩ | ⟨hnone, -⟩
    · rw [perform, htick]
    · rw [hnone] at hwaits
      cases hwaits
  | tryMove source target => simp [perform, tryMove, hwaits]
  | promote kind => cases hsettles
  | reset => cases hsettles

def Promotes (g : Game) (kind : PieceKind) : Prop :=
  ∃ source target, g.pending = some (source, target) ∧
    g.position.at? source = some ⟨.pawn, g.position.sideToMove⟩ ∧
    g.position.play ⟨source, target, some kind⟩ = (true, (g.promote kind).2.position) ∧
    (g.promote kind).2.position.at? target = some ⟨kind, g.position.sideToMove⟩ ∧
    (g.promote kind).2.position.sideToMove = g.position.sideToMove.other ∧
    (g.promote kind).2.pending = none

/-- Each of the four promotions is legal, whichever the waiting move was found by. -/
theorem InOrder.mem_legalMoves (h : g.InOrder bot) (hpending : g.pending = some (source, target))
    (hkind : kind ∈ PieceKind.promotions) : ⟨source, target, some kind⟩ ∈ g.position.legalMoves := by
  obtain ⟨record, hrecord⟩ := h.reached
  obtain ⟨other, hlegal⟩ := h.promotes source target hpending
  exact (sound_of_reached hrecord).promoting_mem hlegal (by simp) hkind

theorem promote_of_pending (hpending : g.pending = some (source, target))
    (hkind : kind ∈ PieceKind.promotions) : g.promote kind =
      (true, { g with pending := none }.finishMove ⟨source, target, some kind⟩) := by
  have hfigure : ¬ (kind = .pawn || kind = .king) = true := by
    rintro hfigure
    cases kind <;> simp [PieceKind.promotions] at hkind hfigure
  rw [promote, hpending]
  exact if_neg hfigure

theorem InOrder.promote_iff (h : g.InOrder bot) (hkind : kind ∈ PieceKind.promotions) :
    (g.promote kind).1 = true ↔ g.Promotes kind := by
  cases hpending : g.pending with
  | none =>
    refine iff_of_false (by simp [Game.promote, hpending]) ?_
    rintro ⟨source, target, hsome, -⟩
    rw [hpending] at hsome
    cases hsome
  | some squares =>
    obtain ⟨source, target⟩ := squares
    have hlegal := h.mem_legalMoves hpending hkind
    have hpromote : g.promote kind = (true, { g with pending := none }.played
        ⟨source, target, some kind⟩) :=
      (promote_of_pending hpending hkind).trans (congrArg (Prod.mk true) (finishMove_of_mem hlegal))
    obtain ⟨hpawn, hat, hside⟩ := Position.apply_promotion hlegal rfl
    refine iff_of_true (by rw [hpromote]) ⟨source, target, hpending, hpawn, ?_, ?_, ?_, ?_⟩
    · rw [hpromote]
      exact Position.play_of_mem hlegal
    · rw [hpromote]
      exact hat
    · rw [hpromote]
      exact hside
    · rw [hpromote]
      rfl

theorem botMove_of_pick (hpick : (pickMove g.position g.stream).1 = some m)
    (hlegal : m.queening ∈ g.position.legalMoves) :
    g.botMove = { g with stream := (pickMove g.position g.stream).2 }.played m.queening := by
  have hplayed := finishMove_of_mem (g := { g with stream := (pickMove g.position g.stream).2 }) hlegal
  unfold botMove
  dsimp only
  rw [hpick]
  exact hplayed

theorem botMove_plays (hlegal : g.position.legalMoves ≠ []) {last : Option Move}
    (hsound : g.position.Sound last) : ∃ m ∈ g.position.legalMoves,
      g.botMove.position = g.position.apply m ∧ g.botMove.pending = g.pending := by
  obtain ⟨m, hm, hpick⟩ := Position.exists_pickMove hlegal g.stream
  have hqueen := hsound.queening_mem hm
  rw [botMove_of_pick hpick hqueen]
  exact ⟨m.queening, hqueen, rfl, rfl⟩

theorem interruptedBy_of_pending (squares : Square × Square) {dt : Float32}
    (hturn : g.isBotTurn = true) (hover : g.status.isOver = false)
    (hlate : ¬ g.timer + dt < botDelay) :
    interruptedBy { g with pending := some squares } (.tick dt) = true :=
  interruptedBy_tick_iff.mpr ⟨rfl, hturn, hover, hlate⟩

/-- A tick that interrupts a wait makes the computer's move. The promotion is still waited for,
every promotion is taken for one, and none moves anything. -/
theorem InOrder.tick_of_interruptedBy (h : g.InOrder bot) {dt : Float32}
    (hinterrupts : g.interruptedBy (.tick dt) = true) :
    (g.tick dt).position.sideToMove = g.position.sideToMove.other ∧
      (g.tick dt).pending = g.pending ∧ ∀ kind ∈ PieceKind.promotions,
        ((g.tick dt).promote kind).1 = true ∧
          ((g.tick dt).promote kind).2.position = (g.tick dt).position := by
  obtain ⟨hwaits, hturn, hover, hlate⟩ := interruptedBy_tick_iff.mp hinterrupts
  obtain ⟨⟨source, target⟩, hpending⟩ := Option.isSome_iff_exists.mp hwaits
  obtain ⟨record, hrecord⟩ := h.reached
  have hlegal : g.position.legalMoves ≠ [] := by
    rwa [h.status, Position.isOver_status, List.isEmpty_eq_false_iff] at hover
  have htick : g.tick dt = { g with timer := g.timer + dt }.botMove := by
    unfold Game.tick
    rw [if_neg (by simp [hturn, hover])]
    exact if_neg hlate
  obtain ⟨m, hm, hposition, hkept⟩ := botMove_plays (g := { g with timer := g.timer + dt }) hlegal
    (sound_of_reached hrecord)
  rw [← htick] at hposition hkept
  obtain ⟨_, hat⟩ := (Position.mem_legalMoves_iff.mp hm).1.exists_kind
  refine ⟨?_, hkept, fun kind hkind => ?_⟩
  · rw [hposition]
    exact Position.apply_sideToMove hat
  · have hpawn := (Position.apply_promotion (h.mem_legalMoves hpending hkind) rfl).1
    -- The pawn is not of the side that is to move now.
    have hstale : ⟨source, target, some kind⟩ ∉ (g.tick dt).position.legalMoves := by
      rw [hposition]
      intro hmem
      exact Position.source_ne_of_apply hm hpawn hmem rfl
    have hidle := congrArg position
      (finishMove_of_notMem (g := { g.tick dt with pending := none }) hstale)
    rw [promote_of_pending (hkept.trans hpending) hkind]
    exact ⟨rfl, hidle⟩

def pawnRace : List Move :=
  [⟨⟨7, 1⟩, ⟨7, 2⟩, none⟩, ⟨⟨0, 6⟩, ⟨0, 4⟩, none⟩, ⟨⟨7, 2⟩, ⟨7, 3⟩, none⟩, ⟨⟨0, 4⟩, ⟨0, 3⟩, none⟩,
   ⟨⟨7, 3⟩, ⟨7, 4⟩, none⟩, ⟨⟨0, 3⟩, ⟨0, 2⟩, none⟩, ⟨⟨7, 4⟩, ⟨7, 5⟩, none⟩, ⟨⟨0, 2⟩, ⟨1, 1⟩, none⟩,
   ⟨⟨6, 1⟩, ⟨6, 2⟩, none⟩]

/-- The host moves for both sides, and at last the computer's pawn to the last rank. -/
def hostCalls : List Call := pawnRace.map Call.ofMove ++ [.tryMove ⟨1, 1⟩ ⟨0, 0⟩]

def raceGame : Game := pawnRace.foldl played (create true none default)

theorem inOrder_raceGame :
    (create true none default).run (pawnRace.map Call.ofMove) = raceGame ∧ raceGame.InOrder true := by
  have hplay : Position.initial.playable pawnRace = true := by decide +kernel
  have hrace := (inOrder_create true none default).run_ofMove rfl hplay
  have horder : ((create true none default).run (pawnRace.map Call.ofMove)).InOrder true :=
    (inOrder_create true none default).run fun _ => rfl
  rw [hrace] at horder
  exact ⟨hrace, horder⟩

theorem mem_legalMoves_raceGame : ⟨⟨1, 1⟩, ⟨0, 0⟩, some .queen⟩ ∈ raceGame.position.legalMoves :=
  Position.mem_legalMoves_of_mayPlay (by decide +kernel)

theorem run_hostCalls : (create true none default).run hostCalls =
    { raceGame with pending := some (⟨1, 1⟩, ⟨0, 0⟩) } := by
  obtain ⟨hrace, horder⟩ := inOrder_raceGame
  have hlast := horder.tryMove_of_promotion rfl mem_legalMoves_raceGame
  rw [hostCalls, run_concat, hrace]
  exact congrArg Prod.snd hlast

/-- While a promotion is waited for, nothing but a promotion or a new game changes the
position, and each of the four promotions plays the waiting move; against the computer, as long
as the host does not let its pawn wait until the computer moves. -/
theorem run_promotions (bot : Bool) (seed : Option UInt64) (free : Chance.Stream)
    (calls : List Call) (call : Call)
    (hquiet : bot = true → (create bot seed free).uninterrupted (calls ++ [call]) = true) :
    (((create bot seed free).run calls).pending.isSome = true → call.settles = false →
      (((create bot seed free).run calls).perform call).position =
        ((create bot seed free).run calls).position) ∧
    ∀ kind ∈ PieceKind.promotions,
      (((create bot seed free).run calls).promote kind).1 = true ↔
        ((create bot seed free).run calls).Promotes kind := by
  simp only [uninterrupted_concat, Bool.and_eq_true, Bool.not_eq_true'] at hquiet
  have horder := (inOrder_create bot seed free).run fun hbot => (hquiet hbot).1
  have hcall := horder.quiet fun hbot => (hquiet hbot).2
  exact ⟨fun hwaits hsettles => position_perform hwaits hsettles hcall,
    fun kind hkind => horder.promote_iff hkind⟩

/-- Too early for the computer to move. -/
theorem run_promotions_early :
    (create true none default).uninterrupted (hostCalls ++ [.tick 0.1]) = true ∧
      ((create true none default).run hostCalls).pending.isSome = true ∧
      (((create true none default).run hostCalls).perform (.tick 0.1)).position =
        ((create true none default).run hostCalls).position ∧
      ((create true none default).run hostCalls).Promotes .knight := by
  have hearly : raceGame.timer + 0.1 < botDelay := by decide +kernel
  have hquiet : (create true none default).uninterrupted (hostCalls ++ [.tick 0.1]) = true := by
    have hcalls : (create true none default).uninterrupted hostCalls = true := rfl
    rw [uninterrupted_concat, hcalls, run_hostCalls]
    simp [interruptedBy, hearly]
  have hwaits : ((create true none default).run hostCalls).pending.isSome = true := by
    rw [run_hostCalls]
    rfl
  have hpromote : (((create true none default).run hostCalls).promote .knight).1 = true := by
    rw [run_hostCalls]
    rfl
  obtain ⟨hkept, hpromotes⟩ := run_promotions true none default hostCalls (.tick 0.1) fun _ => hquiet
  exact ⟨hquiet, hwaits, hkept hwaits rfl,
    (hpromotes .knight (by simp [PieceKind.promotions])).mp hpromote⟩

/-- The computer moves although a promotion is waited for, and a promotion after that is taken
for one and plays nothing. -/
theorem tick_moves_while_waiting :
    ((create true none default).run hostCalls).pending.isSome = true ∧
      Call.settles (.tick 1.0) = false ∧
      (((create true none default).run hostCalls).perform (.tick 1.0)).position ≠
        ((create true none default).run hostCalls).position ∧
      (((create true none default).run (hostCalls ++ [.tick 1.0])).promote .knight).1 = true ∧
      ¬ ((create true none default).run (hostCalls ++ [.tick 1.0])).Promotes .knight := by
  have hlate : ¬ raceGame.timer + 1.0 < botDelay := by decide +kernel
  have hturn : raceGame.isBotTurn = true := by decide +kernel
  have hover : raceGame.status.isOver = false := by
    rw [inOrder_raceGame.2.status]
    exact Position.not_isOver_of_mem mem_legalMoves_raceGame
  have horder : ((create true none default).run hostCalls).InOrder true :=
    (inOrder_create true none default).run fun _ => rfl
  have hinterrupts : ((create true none default).run hostCalls).interruptedBy (.tick 1.0) = true := by
    rw [run_hostCalls]
    exact interruptedBy_of_pending _ hturn hover hlate
  obtain ⟨hside, -, hpromote⟩ := horder.tick_of_interruptedBy hinterrupts
  obtain ⟨haccepted, hidle⟩ := hpromote .knight (by simp [PieceKind.promotions])
  refine ⟨?_, rfl, fun he => ?_, ?_, ?_⟩
  · rw [run_hostCalls]
    rfl
  · exact Side.other_ne _ (hside.symm.trans (congrArg Position.sideToMove he))
  · rw [run_concat]
    exact haccepted
  · rw [run_concat, perform]
    rintro ⟨source, target, -, -, -, -, hmoved, -⟩
    rw [hidle] at hmoved
    exact Side.other_ne _ hmoved.symm

end Game
end PocketTerminal.Chess
