import PocketTerminal.Proofs.Chess.Games

/-! # Promotions

What a pawn becomes on the last rank has no part in whether it may go there. The new piece
stands where every other would, and whether it could give check is not asked of the side that
has moved. So a move that promotes to one piece is legal with each of the four. -/
namespace PocketTerminal.Chess

namespace Move

def promoting (m : Move) (kind : PieceKind) : Move := { m with promotion := some kind }

/-- Of two moves between the same squares one is a promotion. -/
theorem promotion_ne_none {m m' : Move} (hsource : m.source = m'.source)
    (htarget : m.target = m'.target) (hne : m ≠ m') : m.promotion ≠ none ∨ m'.promotion ≠ none := by
  by_contra hnone
  rw [not_or, not_not, not_not] at hnone
  obtain ⟨hnone, hnone'⟩ := hnone
  apply hne
  cases m
  cases m'
  dsimp only at hsource htarget hnone hnone'
  rw [hsource, htarget, hnone, hnone']

end Move

namespace Rules

variable {b b' : Board} {past : Past} {side : Side} {s t : Square} {m : Move} {kind : PieceKind}

theorem Slides.mono {d : Int × Int} (hempty : ∀ u, b u = none → b' u = none)
    (h : Slides b d s t) : Slides b' d s t := by
  obtain ⟨n, hn, haway, hbetween⟩ := h
  exact ⟨n, hn, haway, fun k u hk hkn hu => hempty u (hbetween k u hk hkn hu)⟩

theorem Attacks.mono {piece : Piece} (hempty : ∀ u, b u = none → b' u = none)
    (h : Attacks b piece s t) : Attacks b' piece s t := by
  obtain ⟨kind, side⟩ := piece
  cases kind with
  | pawn | knight | king => exact h
  | bishop | rook | queen =>
    obtain ⟨d, hd, hslides⟩ := h
    exact ⟨d, hd, hslides.mono hempty⟩

/-- What is attacked stays so where the attackers stay and no line is closed. -/
theorem Attacked.mono (hempty : ∀ u, b u = none → b' u = none)
    (hpieces : ∀ u kind, b u = some ⟨kind, side⟩ → b' u = some ⟨kind, side⟩)
    (h : Attacked b side t) : Attacked b' side t := by
  obtain ⟨s, kind, hs, hattacks⟩ := h
  exact ⟨s, kind, hpieces s kind hs, hattacks.mono hempty⟩

theorem Promotes.promoting (h : Promotes side m) (hpromotes : m.promotion ≠ none)
    (hkind : kind ∈ PieceKind.promotions) : Promotes side (m.promoting kind) := by
  unfold Promotes at h ⊢
  split at h
  · next hrank =>
    rw [if_pos (show (m.promoting kind).target.rank = side.other.homeRank from hrank)]
    simpa [PieceKind.promotions, Move.promoting] using hkind
  · exact absurd h hpromotes

/-- Only pawns are promoted. -/
theorem Moves.pawn_promotes (h : Moves b past side m) (hpromotes : m.promotion ≠ none) :
    b m.source = some ⟨.pawn, side⟩ ∧ Promotes side m := by
  cases h with
  | pawnStep hat _ _ hp => exact ⟨hat, hp⟩
  | pawnDouble _ _ _ _ _ _ hnone => exact absurd hnone hpromotes
  | pawnTakes hat _ _ hp => exact ⟨hat, hp⟩
  | pawnPasses hat _ _ hp => exact ⟨hat, hp⟩
  | piece _ _ _ _ hnone => exact absurd hnone hpromotes
  | castles _ _ _ _ _ _ _ _ _ _ _ hnone => exact absurd hnone hpromotes

theorem Moves.promoting (h : Moves b past side m) (hpromotes : m.promotion ≠ none)
    (hkind : kind ∈ PieceKind.promotions) : Moves b past side (m.promoting kind) := by
  cases h with
  | pawnStep hat haway hempty hp =>
    exact .pawnStep hat haway hempty (hp.promoting hpromotes hkind)
  | pawnDouble _ _ _ _ _ _ hnone => exact absurd hnone hpromotes
  | pawnTakes hat hattacks htake hp =>
    exact .pawnTakes hat hattacks htake (hp.promoting hpromotes hkind)
  | pawnPasses hat hattacks hpassed hp =>
    exact .pawnPasses hat hattacks hpassed (hp.promoting hpromotes hkind)
  | piece _ _ _ _ hnone => exact absurd hnone hpromotes
  | castles _ _ _ _ _ _ _ _ _ _ _ hnone => exact absurd hnone hpromotes

/-- Whether a move promotes is settled by its squares. -/
theorem Moves.promotes_of_promotes {m' : Move} (h : Moves b past side m)
    (h' : Moves b past side m') (hsource : m.source = m'.source) (htarget : m.target = m'.target)
    (hpromotes : m'.promotion ≠ none) : m.promotion ≠ none := by
  obtain ⟨hpawn, hlast⟩ := h'.pawn_promotes hpromotes
  rw [← hsource] at hpawn
  have hrank : m.target.rank = side.other.homeRank := by
    by_contra hrank
    rw [Promotes, ← htarget, if_neg hrank] at hlast
    exact hpromotes hlast
  have hof_promotes (hp : Promotes side m) : m.promotion ≠ none := by
    rw [Promotes, if_pos hrank] at hp
    rcases hp with hp | hp | hp | hp <;> simp [hp]
  cases h with
  | pawnStep _ _ _ hp => exact hof_promotes hp
  | pawnDouble _ hstart _ _ haway _ _ =>
    exact absurd hrank (Position.double_ne_lastRank hstart haway)
  | pawnTakes _ _ _ hp => exact hof_promotes hp
  | pawnPasses _ _ _ hp => exact hof_promotes hp
  | piece hkind hat _ _ _ =>
    rw [hpawn] at hat
    cases hat
    exact absurd rfl hkind
  | castles _ _ hat _ _ _ _ _ _ _ _ _ =>
    rw [hpawn] at hat
    cases hat

theorem after_promoting (hat : b m.source = some ⟨.pawn, side⟩) :
    after b (m.promoting kind) t = if t = m.target then some ⟨kind, side⟩ else after b m t := by
  unfold after
  simp only [Move.promoting, hat, Option.elim_some]
  split <;> rfl

/-- No promoted piece is a king, and none is one of the other side's. -/
theorem Legal.promoting (h : Legal b past side m) (hpromotes : m.promotion ≠ none)
    (hkind : kind ∈ PieceKind.promotions) : Legal b past side (m.promoting kind) := by
  have hat := (h.moves.pawn_promotes hpromotes).1
  refine ⟨h.moves.promoting hpromotes hkind, fun k hk hattacked => ?_⟩
  rw [after_promoting hat] at hk
  split at hk
  · cases hk
    simp [PieceKind.promotions] at hkind
  -- The new piece is the mover's own and stands where the other one would: it shuts the same
  -- lines and attacks no square for the other side.
  · refine h.safe k hk (hattacked.mono (fun u hu => ?_) fun u other hu => ?_)
    · rw [after_promoting hat] at hu
      split at hu
      · cases hu
      · exact hu
    · rw [after_promoting hat] at hu
      split at hu
      · exact absurd (congrArg Piece.side (Option.some_inj.mp hu)).symm side.other_ne
      · exact hu

end Rules

namespace Position

open Rules

variable {p : Position} {last : Option Move} {m : Move} {kind : PieceKind}

theorem Sound.mem_legalMoves_iff (h : p.Sound last) :
    m ∈ p.legalMoves ↔ Legal p.at? (p.past p.sideToMove) p.sideToMove m := by
  rw [Position.mem_legalMoves_iff]
  constructor
  · rintro ⟨hm, hsafe⟩
    exact ⟨hm, (h.safe_iff hm).mp hsafe⟩
  · rintro ⟨hm, hsafe⟩
    exact ⟨hm, (h.safe_iff hm).mpr hsafe⟩

theorem Sound.promoting_mem (h : p.Sound last) (hm : m ∈ p.legalMoves)
    (hpromotes : m.promotion ≠ none) (hkind : kind ∈ PieceKind.promotions) :
    m.promoting kind ∈ p.legalMoves :=
  h.mem_legalMoves_iff.mpr ((h.mem_legalMoves_iff.mp hm).promoting hpromotes hkind)

/-- What a promotion makes of the position: the pawn's side has the new piece on the target
square, and the other side is to move. -/
theorem apply_promotion (hm : m ∈ p.legalMoves) (hpromotion : m.promotion = some kind) :
    p.at? m.source = some ⟨.pawn, p.sideToMove⟩ ∧
      (p.apply m).at? m.target = some ⟨kind, p.sideToMove⟩ ∧
      (p.apply m).sideToMove = p.sideToMove.other := by
  have hmoves := (mem_legalMoves_iff.mp hm).1
  have hpromotes : m.promotion ≠ none := by simp [hpromotion]
  have hat := (hmoves.pawn_promotes hpromotes).1
  refine ⟨hat, ?_, apply_sideToMove hat⟩
  rw [at?_apply_eq hat, if_pos rfl, arriving_eq hmoves hat, hpromotion, Option.elim_some]

end Position
end PocketTerminal.Chess
