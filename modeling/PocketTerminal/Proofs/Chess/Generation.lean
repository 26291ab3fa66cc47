import PocketTerminal.Proofs.Chess.Lines

/-! # The moves of pieces

The generator lists for every piece what the rules let it do, the king's safety aside, and
each move once. -/
namespace PocketTerminal.Chess

open Rules

theorem Move.eq_iff {m : Move} {source target : Square} {promotion : Option PieceKind} :
    m = ⟨source, target, promotion⟩ ↔
      m.source = source ∧ m.target = target ∧ m.promotion = promotion := by
  cases m
  simp

namespace Position

variable {p : Position} {side : Side} {s t : Square} {m : Move} {d : Int × Int}

def past (p : Position) (side : Side) : Past where
  passed s := p.enPassant = some s
  unmoved kingSide := p.castling.get side kingSide = true

theorem lastRank_iff {df : Int} (h : s.Away t df side.forward) :
    t.rank = 0 ∨ t.rank = 7 ↔ t.rank = side.other.homeRank := by
  have hs := s.rank.isLt
  have hr := h.2
  rw [Fin.ext_iff, Fin.ext_iff, Fin.ext_iff]
  cases side <;> simp only [Side.forward, Side.other, Side.homeRank] at hr ⊢ <;> simp <;> omega

theorem mem_pawnMoves_iff {df : Int} (h : s.Away t df side.forward) :
    m ∈ pawnMoves s t ↔ m.source = s ∧ m.target = t ∧ Promotes side m := by
  unfold pawnMoves Promotes
  simp only [Bool.or_eq_true, decide_eq_true_eq, lastRank_iff h]
  split
  · next hlast =>
    simp only [PieceKind.promotions, List.map_cons, List.map_nil, List.mem_cons, Move.eq_iff,
      List.not_mem_nil, or_false]
    constructor
    · rintro (⟨hs, ht, hp⟩ | ⟨hs, ht, hp⟩ | ⟨hs, ht, hp⟩ | ⟨hs, ht, hp⟩) <;>
        exact ⟨hs, ht, by rw [ht, if_pos hlast]; simp [hp]⟩
    · rintro ⟨hs, ht, hp⟩
      rw [ht, if_pos hlast] at hp
      rcases hp with hp | hp | hp | hp <;> simp [hs, ht, hp]
  · next hlast =>
    rw [List.mem_singleton, Move.eq_iff]
    constructor
    · rintro ⟨hs, ht, hp⟩
      exact ⟨hs, ht, by rw [ht, if_neg hlast, hp]⟩
    · rintro ⟨hs, ht, hp⟩
      rw [ht, if_neg hlast] at hp
      exact ⟨hs, ht, hp⟩

/-- A pawn's one step, or the two from where it starts. -/
def PawnAhead (p : Position) (side : Side) (m : Move) : Prop :=
  m.source.Away m.target 0 side.forward ∧ p.at? m.target = none ∧ Promotes side m ∨
    m.source.rank = side.pawnRank ∧ ∃ middle, m.source.Away middle 0 side.forward ∧ p.at? middle = none ∧
      m.source.Away m.target 0 (2 * side.forward) ∧ p.at? m.target = none ∧ m.promotion = none

theorem away_two_iff {middle : Square} (h : s.Away middle 0 side.forward) :
    middle.Away t 0 side.forward ↔ s.Away t 0 (2 * side.forward) := by
  unfold Square.Away at *
  omega

theorem mem_pawnSteps_iff : m ∈ p.pawnSteps side s ↔ m.source = s ∧ p.PawnAhead side m := by
  unfold pawnSteps PawnAhead
  cases hone : s.offset (0, side.forward) with
  | none =>
    have hnone := Square.offset_eq_none_iff.mp hone
    simp only [List.not_mem_nil, false_iff]
    rintro ⟨rfl, ⟨haway, -⟩ | ⟨-, middle, haway, -⟩⟩
    · exact hnone _ haway
    · exact hnone _ haway
  | some one =>
    have haway := Square.offset_eq_some_iff.mp hone
    dsimp only at haway ⊢
    cases hat : p.at? one with
    | some piece =>
      simp only [Option.isSome_some, if_true, List.not_mem_nil, false_iff]
      rintro ⟨rfl, ⟨htarget, hempty, -⟩ | ⟨-, middle, hmiddle, hempty, -⟩⟩
      · rw [htarget.eq haway, hat] at hempty
        cases hempty
      · rw [hmiddle.eq haway, hat] at hempty
        cases hempty
    | none =>
      simp only [Option.isSome_none, Bool.false_eq_true, if_false, List.mem_append,
        mem_pawnMoves_iff haway]
      constructor
      · rintro (⟨rfl, rfl, hp⟩ | hm)
        · exact ⟨rfl, .inl ⟨haway, hat, hp⟩⟩
        · split at hm
          · next hrank =>
            cases htwo : one.offset (0, side.forward) with
            | none =>
              rw [htwo] at hm
              cases hm
            | some two =>
              have htwo' := (away_two_iff haway).mp (Square.offset_eq_some_iff.mp htwo)
              rw [htwo] at hm
              cases hat2 : p.at? two with
              | some piece => simp [hat2] at hm
              | none =>
                simp only [hat2, Option.isSome_none, Bool.false_eq_true, if_false,
                  List.mem_singleton, Move.eq_iff] at hm
                obtain ⟨rfl, rfl, hp⟩ := hm
                exact ⟨rfl, .inr ⟨hrank, one, haway, hat, htwo', hat2, hp⟩⟩
          · cases hm
      · rintro ⟨rfl, ⟨htarget, hempty, hp⟩ | ⟨hrank, middle, hmiddle, hempty, htwo, hempty2, hp⟩⟩
        · exact .inl ⟨rfl, htarget.eq haway, hp⟩
        · have htwo' : one.offset (0, side.forward) = some m.target :=
            Square.offset_eq_some_iff.mpr ((away_two_iff haway).mpr htwo)
          right
          rw [if_pos hrank, htwo']
          simp [hempty2, Move.eq_iff, hp]

/-- Another side's piece stands there. -/
theorem any_side_ne_iff :
    ((p.at? t).any fun piece => piece.side != side) = true ↔
      ∃ kind, p.at? t = some ⟨kind, side.other⟩ := by
  rw [Option.any_eq_true]
  constructor
  · rintro ⟨⟨kind, owner⟩, hat, hne⟩
    rw [bne_iff_ne] at hne
    exact ⟨kind, Side.eq_other_of_ne hne ▸ hat⟩
  · rintro ⟨kind, hat⟩
    exact ⟨_, hat, bne_iff_ne.mpr side.other_ne⟩

theorem all_side_ne_iff :
    ((p.at? t).all fun piece => piece.side != side) = true ↔ ∀ own, p.at? t ≠ some ⟨own, side⟩ := by
  rw [Option.all_eq_true]
  constructor
  · intro hall own hat
    have := hall _ hat
    rw [bne_iff_ne] at this
    exact this rfl
  · rintro hnone ⟨kind, owner⟩ hat
    rw [bne_iff_ne]
    rintro rfl
    exact hnone kind hat

theorem mem_pawnCaptures_iff {df : Int} :
    m ∈ p.pawnCaptures side s df ↔ m.source = s ∧ m.source.Away m.target df side.forward ∧
      ((∃ kind, p.at? m.target = some ⟨kind, side.other⟩) ∨ p.enPassant = some m.target) ∧
      Promotes side m := by
  unfold pawnCaptures
  cases ho : s.offset (df, side.forward) with
  | none =>
    have hnone := Square.offset_eq_none_iff.mp ho
    simp only [List.not_mem_nil, false_iff]
    rintro ⟨rfl, haway, -⟩
    exact hnone _ haway
  | some target =>
    have haway := Square.offset_eq_some_iff.mp ho
    dsimp only at haway ⊢
    split
    · next hcapture =>
      rw [Bool.or_eq_true, any_side_ne_iff, decide_eq_true_eq] at hcapture
      rw [mem_pawnMoves_iff haway]
      constructor
      · rintro ⟨rfl, rfl, hp⟩
        exact ⟨rfl, haway, hcapture, hp⟩
      · rintro ⟨rfl, htarget, -, hp⟩
        exact ⟨rfl, htarget.eq haway, hp⟩
    · next hcapture =>
      rw [Bool.or_eq_true, any_side_ne_iff, decide_eq_true_eq] at hcapture
      simp only [List.not_mem_nil, false_iff]
      rintro ⟨rfl, htarget, htake, -⟩
      exact hcapture (htarget.eq haway ▸ htake)

theorem mem_stepMove_iff :
    m ∈ p.stepMove side s d ↔ m.source = s ∧ m.source.Away m.target d.1 d.2 ∧
      (∀ own, p.at? m.target ≠ some ⟨own, side⟩) ∧ m.promotion = none := by
  unfold stepMove
  cases ho : s.offset d with
  | none =>
    have hnone := Square.offset_eq_none_iff.mp ho
    simp only [List.not_mem_nil, false_iff]
    rintro ⟨rfl, haway, -⟩
    exact hnone _ haway
  | some target =>
    have haway := Square.offset_eq_some_iff.mp ho
    dsimp only
    split
    · next hfree =>
      rw [all_side_ne_iff] at hfree
      rw [List.mem_singleton, Move.eq_iff]
      constructor
      · rintro ⟨rfl, rfl, hp⟩
        exact ⟨rfl, haway, hfree, hp⟩
      · rintro ⟨rfl, htarget, -, hp⟩
        exact ⟨rfl, htarget.eq haway, hp⟩
    · next hfree =>
      rw [all_side_ne_iff] at hfree
      simp only [List.not_mem_nil, false_iff]
      rintro ⟨rfl, htarget, hown, -⟩
      exact hfree (htarget.eq haway ▸ hown)

theorem mem_slides_iff (hd : Straight d ∨ Diagonal d) :
    m ∈ p.slides side s d ↔ m.source = s ∧ Slides p.at? d m.source m.target ∧
      (∀ own, p.at? m.target ≠ some ⟨own, side⟩) ∧ m.promotion = none := by
  unfold slides
  rw [List.mem_map]
  constructor
  · rintro ⟨target, htarget, rfl⟩
    obtain ⟨hsees, hown⟩ := mem_reachable_iff.mp htarget
    exact ⟨rfl, (sees_ray_iff hd).mp hsees, hown, rfl⟩
  · rintro ⟨rfl, hslides, hown, hp⟩
    refine ⟨m.target, mem_reachable_iff.mpr ⟨(sees_ray_iff hd).mpr hslides, hown⟩, ?_⟩
    exact (Move.eq_iff.mpr ⟨rfl, rfl, hp⟩).symm

def way (kingSide : Bool) : CastlingWay :=
  if kingSide then ⟨true, 7, [5, 6], 5, 6⟩ else ⟨false, 0, [1, 2, 3], 3, 2⟩

theorem mem_castlingWays_iff {w : CastlingWay} : w ∈ castlingWays ↔ ∃ kingSide, w = way kingSide := by
  have hways : castlingWays = [way true, way false] := rfl
  rw [hways, Bool.exists_bool, List.mem_cons, List.mem_singleton, or_comm]

theorem kingSide_way (kingSide : Bool) : (way kingSide).kingSide = kingSide := by
  cases kingSide <;> rfl

theorem rookHome_way (side : Side) (kingSide : Bool) :
    (⟨(way kingSide).rookFile, side.homeRank⟩ : Square) = rookHome side kingSide := by
  cases kingSide <;> rfl

theorem away_crossing_iff {u : Square} (side : Side) (kingSide : Bool) :
    (kingHome side).Away u (toward kingSide) 0 ↔ u = ⟨(way kingSide).crossing, side.homeRank⟩ := by
  rw [Square.ext_iff, Fin.ext_iff, Fin.ext_iff]
  unfold Square.Away kingHome
  cases kingSide <;> simp [toward, way] <;> omega

theorem away_landing_iff {u : Square} (side : Side) (kingSide : Bool) :
    (kingHome side).Away u (2 * toward kingSide) 0 ↔ u = ⟨(way kingSide).landing, side.homeRank⟩ := by
  rw [Square.ext_iff, Fin.ext_iff, Fin.ext_iff]
  unfold Square.Away kingHome
  cases kingSide <;> simp [toward, way] <;> omega

theorem inside_iff {u : Square} (kingSide : Bool) :
    Inside side kingSide u ↔ u.rank = side.homeRank ∧ u.file ∈ (way kingSide).empty := by
  refine and_congr_right fun _ => ?_
  cases kingSide <;> simp [way, Fin.ext_iff] <;> omega

theorem all_empty_iff (kingSide : Bool) :
    ((way kingSide).empty.all fun file => (p.at? ⟨file, side.homeRank⟩).isNone) = true ↔
      ∀ u, Inside side kingSide u → p.at? u = none := by
  rw [List.all_eq_true]
  constructor
  · intro hall u hu
    obtain ⟨hrank, hfile⟩ := (inside_iff kingSide).mp hu
    have := hall u.file hfile
    rwa [Option.isNone_iff_eq_none, ← hrank] at this
  · intro hall file hfile
    rw [Option.isNone_iff_eq_none]
    exact hall _ ((inside_iff kingSide).mpr ⟨rfl, hfile⟩)

theorem not_isAttacked_iff : (!p.isAttacked t side) = true ↔ ¬ Attacked p.at? side t := by
  rw [Bool.not_eq_true', ← Bool.not_eq_true, isAttacked_iff]

theorem canCastle_way_iff (kingSide : Bool) :
    p.canCastle side (way kingSide) = true ↔
      (p.past side).unmoved kingSide ∧ p.at? (rookHome side kingSide) = some ⟨.rook, side⟩ ∧
        (∀ u, Inside side kingSide u → p.at? u = none) ∧
        ¬ Attacked p.at? side.other ⟨(way kingSide).crossing, side.homeRank⟩ ∧
        ¬ Attacked p.at? side.other ⟨(way kingSide).landing, side.homeRank⟩ := by
  unfold canCastle
  dsimp only
  rw [Bool.and_eq_true, Bool.and_eq_true, Bool.and_eq_true, Bool.and_eq_true, all_empty_iff,
    not_isAttacked_iff, not_isAttacked_iff, kingSide_way, rookHome_way, beq_iff_eq, and_assoc,
    and_assoc, and_assoc]
  rfl

/-- What castling asks for, the king's being at home aside. -/
def Castles (p : Position) (side : Side) (kingSide : Bool) (m : Move) : Prop :=
  p.at? (rookHome side kingSide) = some ⟨.rook, side⟩ ∧ (p.past side).unmoved kingSide ∧
    (∀ u, Inside side kingSide u → p.at? u = none) ∧
    ∃ crossing, m.source.Away crossing (toward kingSide) 0 ∧
      m.source.Away m.target (2 * toward kingSide) 0 ∧ ¬ Attacked p.at? side.other m.source ∧
      ¬ Attacked p.at? side.other crossing ∧ ¬ Attacked p.at? side.other m.target

theorem mem_castlingMoves_iff :
    m ∈ p.castlingMoves side s ↔ m.source = s ∧ m.source = kingHome side ∧ m.promotion = none ∧
      ∃ kingSide, p.Castles side kingSide m := by
  unfold castlingMoves
  split
  · next hking =>
    rw [Bool.and_eq_true, decide_eq_true_eq, not_isAttacked_iff] at hking
    obtain ⟨rfl, hstart⟩ := hking
    rw [List.mem_map]
    constructor
    · rintro ⟨w, hw, rfl⟩
      obtain ⟨hw, hcan⟩ := List.mem_filter.mp hw
      obtain ⟨kingSide, rfl⟩ := mem_castlingWays_iff.mp hw
      obtain ⟨hunmoved, hrook, hempty, hcrossing, hlanding⟩ := (canCastle_way_iff kingSide).mp hcan
      exact ⟨rfl, rfl, rfl, kingSide, hrook, hunmoved, hempty, _,
        (away_crossing_iff side kingSide).mpr rfl, (away_landing_iff side kingSide).mpr rfl,
        hstart, hcrossing, hlanding⟩
    · rintro ⟨hs, hhome, hp, kingSide, hrook, hunmoved, hempty, crossing, hcross, hland, -,
        hcrossing, hlanding⟩
      rw [hs] at hcross hland
      have hcross := (away_crossing_iff side kingSide).mp hcross
      have hland := (away_landing_iff side kingSide).mp hland
      rw [hcross] at hcrossing
      rw [hland] at hlanding
      refine ⟨way kingSide, List.mem_filter.mpr ⟨mem_castlingWays_iff.mpr ⟨kingSide, rfl⟩,
        (canCastle_way_iff kingSide).mpr ⟨hunmoved, hrook, hempty, hcrossing, hlanding⟩⟩, ?_⟩
      exact (Move.eq_iff.mpr ⟨hs, hland, hp⟩).symm
  · next hking =>
    rw [Bool.and_eq_true, decide_eq_true_eq, not_isAttacked_iff] at hking
    simp only [List.not_mem_nil, false_iff]
    rintro ⟨rfl, hhome, -, kingSide, -, -, -, crossing, -, -, hstart, -⟩
    exact hking ⟨hhome, hstart⟩

theorem moves_pawn_iff (hat : p.at? m.source = some ⟨.pawn, side⟩) :
    Moves p.at? (p.past side) side m ↔ p.PawnAhead side m ∨
      Attacks p.at? ⟨.pawn, side⟩ m.source m.target ∧
        ((∃ kind, p.at? m.target = some ⟨kind, side.other⟩) ∨ p.enPassant = some m.target) ∧
        Promotes side m := by
  constructor
  · intro hm
    cases hm with
    | pawnStep _ haway hempty hp => exact .inl (.inl ⟨haway, hempty, hp⟩)
    | pawnDouble _ hrank hmiddle hempty haway hempty2 hp =>
      exact .inl (.inr ⟨hrank, _, hmiddle, hempty, haway, hempty2, hp⟩)
    | pawnTakes _ hattacks htake hp => exact .inr ⟨hattacks, .inl ⟨_, htake⟩, hp⟩
    | pawnPasses _ hattacks hpassed hp => exact .inr ⟨hattacks, .inr hpassed, hp⟩
    | piece hkind hat' _ _ _ =>
      rw [hat] at hat'
      cases hat'
      exact absurd rfl hkind
    | castles kingSide _ hat' _ _ _ _ _ _ _ _ _ =>
      rw [hat] at hat'
      cases hat'
  · rintro ((⟨haway, hempty, hp⟩ | ⟨hrank, middle, hmiddle, hempty, haway, hempty2, hp⟩) |
      ⟨hattacks, ⟨kind, htake⟩ | hpassed, hp⟩)
    · exact .pawnStep hat haway hempty hp
    · exact .pawnDouble hat hrank hmiddle hempty haway hempty2 hp
    · exact .pawnTakes hat hattacks htake hp
    · exact .pawnPasses hat hattacks hpassed hp

theorem moves_piece_iff {kind : PieceKind} (hpawn : kind ≠ .pawn)
    (hat : p.at? m.source = some ⟨kind, side⟩) :
    Moves p.at? (p.past side) side m ↔
      (Attacks p.at? ⟨kind, side⟩ m.source m.target ∧
        (∀ own, p.at? m.target ≠ some ⟨own, side⟩) ∧ m.promotion = none) ∨
      kind = .king ∧ m.source = kingHome side ∧ m.promotion = none ∧
        ∃ kingSide, p.Castles side kingSide m := by
  have hnot (hat' : p.at? m.source = some ⟨.pawn, side⟩) : False := by
    rw [hat] at hat'
    cases hat'
    exact hpawn rfl
  constructor
  · intro hm
    cases hm with
    | pawnStep hat' _ _ _ => exact (hnot hat').elim
    | pawnDouble hat' _ _ _ _ _ _ => exact (hnot hat').elim
    | pawnTakes hat' _ _ _ => exact (hnot hat').elim
    | pawnPasses hat' _ _ _ => exact (hnot hat').elim
    | piece _ hat' hattacks hown hp =>
      rw [hat] at hat'
      cases hat'
      exact .inl ⟨hattacks, hown, hp⟩
    | castles kingSide hhome hat' hrook hunmoved hempty hcross hland hstart hcrossing hlanding hp =>
      rw [hat] at hat'
      cases hat'
      exact .inr ⟨rfl, hhome, hp, kingSide, hrook, hunmoved, hempty, _, hcross, hland, hstart,
        hcrossing, hlanding⟩
  · rintro (⟨hattacks, hown, hp⟩ | ⟨rfl, hhome, hp, kingSide, hrook, hunmoved, hempty, crossing,
      hcross, hland, hstart, hcrossing, hlanding⟩)
    · exact .piece hpawn hat hattacks hown hp
    · exact .castles kingSide hhome hat hrook hunmoved hempty hcross hland hstart hcrossing
        hlanding hp

theorem mem_flatMap_slides_iff {rays : List (Int × Int)} {Direction : Int × Int → Prop}
    (hmem : ∀ d, d ∈ rays ↔ Direction d) (hqueen : ∀ d, Direction d → Straight d ∨ Diagonal d) :
    m ∈ rays.flatMap (p.slides side s) ↔ m.source = s ∧
      (∃ d, Direction d ∧ Slides p.at? d m.source m.target) ∧
      (∀ own, p.at? m.target ≠ some ⟨own, side⟩) ∧ m.promotion = none := by
  rw [List.mem_flatMap]
  constructor
  · rintro ⟨d, hd, hm⟩
    have hd := (hmem d).mp hd
    obtain ⟨hs, hslides, hown, hp⟩ := (mem_slides_iff (hqueen d hd)).mp hm
    exact ⟨hs, ⟨d, hd, hslides⟩, hown, hp⟩
  · rintro ⟨hs, ⟨d, hd, hslides⟩, hown, hp⟩
    exact ⟨d, (hmem d).mpr hd, (mem_slides_iff (hqueen d hd)).mpr ⟨hs, hslides, hown, hp⟩⟩

theorem mem_flatMap_stepMove_iff {steps : List (Int × Int)} {Direction : Int × Int → Prop}
    (hmem : ∀ d, d ∈ steps ↔ Direction d) :
    m ∈ steps.flatMap (p.stepMove side s) ↔ m.source = s ∧
      (∃ d, Direction d ∧ m.source.Away m.target d.1 d.2) ∧
      (∀ own, p.at? m.target ≠ some ⟨own, side⟩) ∧ m.promotion = none := by
  rw [List.mem_flatMap]
  constructor
  · rintro ⟨d, hd, hm⟩
    obtain ⟨hs, haway, hown, hp⟩ := mem_stepMove_iff.mp hm
    exact ⟨hs, ⟨d, (hmem d).mp hd, haway⟩, hown, hp⟩
  · rintro ⟨hs, ⟨d, hd, haway⟩, hown, hp⟩
    exact ⟨d, (hmem d).mpr hd, mem_stepMove_iff.mpr ⟨hs, haway, hown, hp⟩⟩

theorem mem_movesOf_iff {kind : PieceKind} (hat : p.at? s = some ⟨kind, side⟩) :
    m ∈ p.movesOf ⟨kind, side⟩ s ↔ m.source = s ∧ Moves p.at? (p.past side) side m := by
  have hmoves (hs : m.source = s) (hpawn : kind ≠ .pawn) :=
    moves_piece_iff (m := m) hpawn (hs.symm ▸ hat)
  unfold movesOf
  dsimp only
  cases kind with
  | pawn =>
    dsimp only
    rw [List.mem_append, List.mem_append, mem_pawnSteps_iff, mem_pawnCaptures_iff,
      mem_pawnCaptures_iff, ← and_or_left, ← and_or_left]
    refine and_congr_right fun hs => ?_
    rw [moves_pawn_iff (hs.symm ▸ hat), or_assoc, ← or_and_right]
    rfl
  | knight =>
    dsimp only
    rw [mem_flatMap_stepMove_iff fun d => mem_knightJumps_iff]
    refine and_congr_right fun hs => ?_
    rw [hmoves hs (by decide)]
    simp only [reduceCtorEq, false_and, or_false]
    rfl
  | bishop =>
    dsimp only
    rw [mem_flatMap_slides_iff (fun d => mem_bishopRays_iff) fun d => .inr]
    refine and_congr_right fun hs => ?_
    rw [hmoves hs (by decide)]
    simp only [reduceCtorEq, false_and, or_false]
    rfl
  | rook =>
    dsimp only
    rw [mem_flatMap_slides_iff (fun d => mem_rookRays_iff) fun d => .inl]
    refine and_congr_right fun hs => ?_
    rw [hmoves hs (by decide)]
    simp only [reduceCtorEq, false_and, or_false]
    rfl
  | queen =>
    dsimp only
    rw [mem_flatMap_slides_iff (fun d => mem_allRays_iff) fun d => id]
    refine and_congr_right fun hs => ?_
    rw [hmoves hs (by decide)]
    simp only [reduceCtorEq, false_and, or_false]
    rfl
  | king =>
    dsimp only
    rw [List.mem_append, mem_flatMap_stepMove_iff fun d => mem_allRays_iff, mem_castlingMoves_iff,
      ← and_or_left]
    refine and_congr_right fun hs => ?_
    rw [hmoves hs (by decide)]
    simp only [true_and]
    rfl

/-- The generator's moves are those of the rules, the king's safety aside. -/
theorem mem_pseudoMoves_iff :
    m ∈ p.pseudoMoves ↔ Moves p.at? (p.past p.sideToMove) p.sideToMove m := by
  unfold pseudoMoves
  rw [List.mem_flatMap]
  constructor
  · rintro ⟨s, hs, hm⟩
    obtain ⟨⟨kind, owner⟩, hat, howner⟩ := (Option.any_eq_true _ _).mp (List.mem_filter.mp hs).2
    rw [beq_iff_eq] at howner
    dsimp only at howner
    subst howner
    rw [pseudoMovesFrom, hat] at hm
    exact ((mem_movesOf_iff hat).mp hm).2
  · intro hm
    obtain ⟨kind, hat⟩ : ∃ kind, p.at? m.source = some ⟨kind, p.sideToMove⟩ := by
      cases hm <;> exact ⟨_, ‹_›⟩
    refine ⟨m.source, List.mem_filter.mpr ⟨Square.mem_all _, ?_⟩, ?_⟩
    · simp [hat]
    · rw [pseudoMovesFrom, hat]
      exact (mem_movesOf_iff hat).mpr ⟨rfl, hm⟩

end Position
end PocketTerminal.Chess
