import Mathlib

/-! # Numbers in single precision

Positive numbers are in the order of their bits. A difference of two of them is rounded to the
nearest number there is, so that it is less than it was before, or the same as before, by how what
is taken away compares with half of a step between numbers of that size. -/
namespace PocketTerminal.Single
open Float.Model Float.Model.UnpackedFloat

variable {b : BitVec Format.binary32.numBits} {x y : Float32} {m c M k R : Nat} {e d t E : Int}

theorem toNat_unpackMantissa (b : BitVec Format.binary32.numBits) :
    (unpackMantissa b).toNat = b.toNat % 2 ^ 23 := by
  simp [unpackMantissa, BitVec.extractLsb_toNat]

theorem toNat_unpackExponent (b : BitVec Format.binary32.numBits) :
    (unpackExponent b).toNat = b.toNat / 2 ^ 23 % 2 ^ 8 := by
  simp [unpackExponent, BitVec.extractLsb_toNat, Nat.shiftRight_eq_div_pow]

theorem toNat_unpackSign (b : BitVec Format.binary32.numBits) :
    (unpackSign b).toNat = b.toNat / 2 ^ 31 % 2 := by
  simp [unpackSign, BitVec.extractLsb_toNat, Nat.shiftRight_eq_div_pow]

theorem toNat_packComponents (sign : Sign) (exponent : BitVec 8) (mantissa : BitVec 23) :
    (packComponents Format.binary32 sign exponent mantissa).toNat =
      sign.toBitVec.toNat * 2 ^ 31 + exponent.toNat * 2 ^ 23 + mantissa.toNat := by
  simp only [packComponents, BitVec.toNat_append]
  rw [← Nat.shiftLeft_add_eq_or_of_lt exponent.isLt, ← Nat.shiftLeft_add_eq_or_of_lt mantissa.isLt]
  simp only [Nat.shiftLeft_eq]
  ring

theorem unpackExponent_eq_iff {n : Nat} (hn : n < 256) :
    unpackExponent b = BitVec.ofNat 8 n ↔ b.toNat / 2 ^ 23 % 2 ^ 8 = n := by
  rw [← BitVec.toNat_inj, toNat_unpackExponent, BitVec.toNat_ofNat]
  exact (Nat.mod_eq_of_lt hn).symm ▸ Iff.rfl

theorem unpackMantissa_eq_zero_iff : unpackMantissa b = 0#23 ↔ b.toNat % 2 ^ 23 = 0 := by
  rw [← BitVec.toNat_inj, toNat_unpackMantissa]
  rfl

theorem sign_of_lt (h : b.toNat < 2 ^ 31) : Sign.ofBitVec (unpackSign b) = .positive := by
  have hsign : unpackSign b = 0#1 := by
    rw [← BitVec.toNat_inj, toNat_unpackSign, Nat.div_eq_of_lt h]
    rfl
  rw [hsign]
  rfl

theorem sign_of_le (h : 2 ^ 31 ≤ b.toNat) : Sign.ofBitVec (unpackSign b) = .negative := by
  have hlt : b.toNat < 2 ^ 32 := b.isLt
  have hsign : unpackSign b = 1#1 := by
    rw [← BitVec.toNat_inj, toNat_unpackSign]
    change b.toNat / 2 ^ 31 % 2 = 1
    omega
  rw [hsign]
  rfl

/-- A mantissa and an exponent as a number in single precision has them: the mantissa has its full
length, or the exponent is the least there is. -/
structure Canonical (m : Nat) (e : Int) : Prop where
  pos : 0 < m
  lt : m < 2 ^ 24
  le : -149 ≤ e
  normal : 2 ^ 23 ≤ m ∨ e = -149

/-- The place of a positive number in the order of all of them, which is in its bits. -/
def place (m : Nat) (e : Int) : Int := (e + 149) * 2 ^ 23 + m

theorem exponentBias_eq : (Format.binary32.exponentBias : Int) = 127 := rfl

theorem fullExponent_eq : (-1#_ : BitVec Format.binary32.exponentBits) = BitVec.ofNat 8 255 := rfl

theorem unpack_of_lt (hpos : 0 < b.toNat) (hlt : b.toNat < 255 * 2 ^ 23) :
    ∃ m e, ∃ h : Canonical m e,
      UnpackedFloat.unpack Format.binary32 b = .finite .positive m e h.pos ∧
      place m e = b.toNat := by
  have hsign := sign_of_lt (b := b) (by omega)
  have hm := toNat_unpackMantissa b
  have he := toNat_unpackExponent b
  have hfull : ¬unpackExponent b = -1#_ := by
    rw [fullExponent_eq, unpackExponent_eq_iff (by decide)]
    omega
  unfold UnpackedFloat.unpack
  dsimp only
  rw [if_neg hfull, hsign, exponentBias_eq]
  split
  case isTrue hzero =>
    have hlow := (unpackExponent_eq_iff (by decide)).mp hzero
    have hmantissa : ¬unpackMantissa b = 0#_ := unpackMantissa_eq_zero_iff.not.mpr (by omega)
    have hcanonical : Canonical (unpackMantissa b).toNat
        (((unpackExponent b).toNat : Int) - (127 + (23 : Nat)) + 1) := by
      rw [hm, he, hlow]
      constructor <;> omega
    rw [dif_neg hmantissa]
    refine ⟨_, _, hcanonical, rfl, ?_⟩
    rw [place, hm, he, hlow]
    omega
  case isFalse hzero =>
    have hlow := (unpackExponent_eq_iff (by decide)).not.mp hzero
    have hlength : (1#1 ++ unpackMantissa b).toNat = 2 ^ 23 + b.toNat % 2 ^ 23 := by
      rw [BitVec.toNat_append, ← Nat.shiftLeft_add_eq_or_of_lt (unpackMantissa b).isLt, hm]
      rfl
    have hcanonical : Canonical (1#1 ++ unpackMantissa b).toNat
        (((unpackExponent b).toNat : Int) - (127 + (23 : Nat))) := by
      rw [hlength, he]
      constructor <;> omega
    refine ⟨_, _, hcanonical, rfl, ?_⟩
    rw [place, hlength, he]
    omega

theorem unpack_zero (h : b.toNat = 0) :
    UnpackedFloat.unpack Format.binary32 b = .zero .positive := by
  have hzero : b = 0#_ := BitVec.eq_of_toNat_eq h
  rw [hzero]
  rfl

theorem unpack_infinity (h : b.toNat = 255 * 2 ^ 23) :
    UnpackedFloat.unpack Format.binary32 b = .infinity .positive := by
  have hinfinity : b = 0x7F800000#_ := BitVec.eq_of_toNat_eq h
  rw [hinfinity]
  rfl

theorem unpack_nan (hlow : 255 * 2 ^ 23 < b.toNat) (hlt : b.toNat < 2 ^ 31) :
    UnpackedFloat.unpack Format.binary32 b = .notANumber := by
  have hfull : unpackExponent b = -1#_ := by
    rw [fullExponent_eq, unpackExponent_eq_iff (by decide)]
    omega
  have hmantissa : ¬unpackMantissa b = 0#_ := unpackMantissa_eq_zero_iff.not.mpr (by omega)
  unfold UnpackedFloat.unpack
  dsimp only
  rw [if_pos hfull, if_neg hmantissa]

inductive Nonnegative : UnpackedFloat → Prop
  | zero (s : Sign) : Nonnegative (.zero s)
  | finite (m : Nat) (e : Int) (h : 0 < m) : Nonnegative (.finite .positive m e h)
  | infinity : Nonnegative (.infinity .positive)

theorem Nonnegative.not_lt_notANumber {u : UnpackedFloat} (h : Nonnegative u) :
    UnpackedFloat.lt u .notANumber = false := by
  cases h <;> rfl

theorem Nonnegative.not_lt_zero {u : UnpackedFloat} (h : Nonnegative u) :
    UnpackedFloat.lt u (.zero .positive) = false := by
  cases h <;> rfl

/-- Numbers with a sign in front are not above those without. -/
theorem Nonnegative.not_lt_unpack {u : UnpackedFloat} (hu : Nonnegative u) (h : 2 ^ 31 ≤ b.toNat) :
    UnpackedFloat.lt u (UnpackedFloat.unpack Format.binary32 b) = false := by
  unfold UnpackedFloat.unpack
  dsimp only
  rw [sign_of_le h]
  split
  · split <;> cases hu <;> rfl
  · split
    · split <;> cases hu <;> rfl
    · cases hu <;> rfl

def bits (x : Float32) : Nat := x.toBits.toNat

theorem bits_inj : bits x = bits y ↔ x = y := UInt32.toNat_inj.trans Float32.toBits_inj

/-- A positive number that is no infinity, with its mantissa and its exponent. -/
structure Written (x : Float32) (m : Nat) (e : Int) : Prop where
  canonical : Canonical m e
  unpack : x.toModel.unpack = .finite .positive m e canonical.pos
  place_eq : place m e = bits x
  lt : bits x < 255 * 2 ^ 23

/-- A number is positive and finite, or positive infinity, or above no number that is not
negative. -/
theorem written_or (x : Float32) :
    (0 < bits x ∧ ∃ m e, Written x m e) ∨
    (bits x = 255 * 2 ^ 23 ∧ x.toModel.unpack = .infinity .positive) ∨
    ((bits x = 0 ∨ 255 * 2 ^ 23 < bits x) ∧
      ∀ u, Nonnegative u → UnpackedFloat.lt u x.toModel.unpack = false) := by
  rcases Nat.eq_zero_or_pos (bits x) with hzero | hpos
  · refine .inr (.inr ⟨.inl hzero, fun u hu => ?_⟩)
    rw [Float32.Model.unpack, unpack_zero (b := x.toModel.toBits.toBitVec) hzero]
    exact hu.not_lt_zero
  · rcases Nat.lt_trichotomy (bits x) (255 * 2 ^ 23) with hlt | heq | hgt
    · obtain ⟨m, e, h, hunpack, hplace⟩ := unpack_of_lt (b := x.toModel.toBits.toBitVec) hpos hlt
      exact .inl ⟨hpos, m, e, h, hunpack, hplace, hlt⟩
    · exact .inr (.inl ⟨heq, unpack_infinity heq⟩)
    · refine .inr (.inr ⟨.inr hgt, fun u hu => ?_⟩)
      rcases Nat.lt_or_ge (bits x) (2 ^ 31) with hlt | hge
      · rw [Float32.Model.unpack, unpack_nan (b := x.toModel.toBits.toBitVec) hgt hlt]
        exact hu.not_lt_notANumber
      · exact hu.not_lt_unpack hge

theorem lt_iff_unpack : x < y ↔ UnpackedFloat.lt x.toModel.unpack y.toModel.unpack = true :=
  decide_eq_true_iff

/-- The bits of positive numbers are behind those of zero and no further than those of infinity. -/
theorem pos_iff : 0 < x ↔ 0 < bits x ∧ bits x ≤ 255 * 2 ^ 23 := by
  have hzero : (0 : Float32).toModel.unpack = .zero .positive := rfl
  rw [lt_iff_unpack, hzero]
  rcases written_or x with ⟨hpos, m, e, hx⟩ | ⟨heq, hx⟩ | ⟨hbits, hx⟩
  · rw [hx.unpack]
    exact iff_of_true rfl ⟨hpos, Nat.le_of_lt hx.lt⟩
  · rw [hx]
    exact iff_of_true rfl (by omega)
  · rw [hx _ (.zero _)]
    exact iff_of_false Bool.false_ne_true (by omega)

theorem pos_cases (hx : 0 < x) :
    (∃ m e, Written x m e) ∨ bits x = 255 * 2 ^ 23 ∧ x.toModel.unpack = .infinity .positive := by
  rw [pos_iff] at hx
  rcases written_or x with ⟨-, hx⟩ | hinfinity | ⟨hbits, -⟩
  · exact .inl hx
  · exact .inr hinfinity
  · omega

theorem pos_of_lt (hx : 0 < x) (hlt : x < y) : 0 < y := by
  have hx : Nonnegative x.toModel.unpack := by
    rcases pos_cases hx with ⟨m, e, hx⟩ | ⟨-, hx⟩
    · exact hx.unpack ▸ .finite ..
    · exact hx ▸ .infinity
  rw [lt_iff_unpack] at hlt
  rw [pos_iff]
  rcases written_or y with ⟨hpos, m, e, hy⟩ | ⟨heq, -⟩ | ⟨-, hy⟩
  · exact ⟨hpos, Nat.le_of_lt hy.lt⟩
  · omega
  · rw [hy _ hx] at hlt
    contradiction

theorem Canonical.place_lt_iff (h : Canonical m e) (h' : Canonical c d) :
    place m e < place c d ↔ e < d ∨ e = d ∧ m < c := by
  obtain ⟨hpos, hlt, hle, hnormal⟩ := h
  obtain ⟨hpos', hlt', hle', hnormal'⟩ := h'
  unfold place
  omega

theorem Canonical.place_inj (h : Canonical m e) (h' : Canonical c d)
    (heq : place m e = place c d) : m = c ∧ e = d := by
  have hlt := (h.place_lt_iff h').not.mp (heq ▸ Int.lt_irrefl _)
  have hgt := (h'.place_lt_iff h).not.mp (heq ▸ Int.lt_irrefl _)
  omega

/-- A number is known by its place. -/
theorem Canonical.written (h : Canonical m e) (heq : place m e = bits x)
    (hlt : bits x < 255 * 2 ^ 23) : Written x m e := by
  have hpos : 0 < bits x := by
    have := h.pos
    have := h.le
    rw [place] at heq
    omega
  rcases written_or x with ⟨-, c, d, hx⟩ | ⟨hinfinity, -⟩ | ⟨hbits, -⟩
  · obtain ⟨rfl, rfl⟩ := h.place_inj hx.canonical (heq.trans hx.place_eq.symm)
    exact hx
  · omega
  · omega

/-- Positive numbers are in the order of their bits. -/
theorem lt_iff_bits (hx : 0 < x) (hy : 0 < y) : x < y ↔ bits x < bits y := by
  rw [lt_iff_unpack]
  rcases pos_cases hx with ⟨m, e, hx⟩ | ⟨heq, hx⟩ <;>
    rcases pos_cases hy with ⟨c, d, hy⟩ | ⟨heq', hy⟩
  · rw [hx.unpack, hy.unpack, ← Nat.cast_lt (α := Int), ← hx.place_eq, ← hy.place_eq,
      hx.canonical.place_lt_iff hy.canonical]
    simp [UnpackedFloat.lt, UnpackedFloat.compare, Ordering.then_eq_lt, compare_lt_iff_lt]
  · rw [hx.unpack, hy]
    exact iff_of_true rfl (heq' ▸ hx.lt)
  · rw [hx, hy.unpack]
    exact iff_of_false Bool.false_ne_true (heq ▸ Nat.not_lt_of_gt hy.lt)
  · rw [hx, hy]
    exact iff_of_false Bool.false_ne_true (by omega)

/-- A mantissa shifted to the right: what was shifted out is in the round bit and the sticky bit, up
to what rounding has to know of it. -/
structure Shifted (M k : Nat) (em : ExtendedMantissa) (rest : Nat) : Prop where
  whole : M = em.mantissa * 2 ^ k + rest
  lt : rest < 2 ^ k
  round : em.roundBit = true ↔ 2 ^ k ≤ 2 * rest
  sticky : em.stickyBit = true ↔ 2 * rest ≠ 0 ∧ 2 * rest ≠ 2 ^ k

theorem Shifted.shiftRightOne {em : ExtendedMantissa} {rest : Nat} (h : Shifted M k em rest) :
    Shifted M (k + 1) em.shiftRightOne (em.mantissa % 2 * 2 ^ k + rest) := by
  obtain ⟨hwhole, hlt, hround, hsticky⟩ := h
  constructor
  · change M = em.mantissa / 2 * 2 ^ (k + 1) + (em.mantissa % 2 * 2 ^ k + rest)
    conv_lhs => rw [hwhole, ← Nat.div_add_mod em.mantissa 2]
    ring
  · rcases Nat.mod_two_eq_zero_or_one em.mantissa with h | h <;> rw [h, Nat.pow_succ] <;> omega
  · change (em.mantissa % 2 != 0) = true ↔ _
    rw [bne_iff_ne, Nat.pow_succ]
    rcases Nat.mod_two_eq_zero_or_one em.mantissa with h | h <;> rw [h] <;> omega
  · change (em.roundBit || em.stickyBit) = true ↔ _
    rw [Bool.or_eq_true, hround, hsticky, Nat.pow_succ]
    rcases Nat.mod_two_eq_zero_or_one em.mantissa with h | h <;> rw [h] <;> omega

theorem exists_shifted (M k : Nat) :
    ∃ rest, Shifted M k (ExtendedMantissa.mk M false false >>> k) rest := by
  induction k with
  | zero => exact ⟨0, by constructor <;> simp [HShiftRight.hShiftRight, Nat.repeat]⟩
  | succ k ih =>
    obtain ⟨rest, h⟩ := ih
    exact ⟨_, h.shiftRightOne⟩

/-- A number rounded to a multiple of a power of two is off by half of it at most. -/
theorem Shifted.nearest {em : ExtendedMantissa} {rest : Nat} (h : Shifted M k em rest) :
    2 * M ≤ 2 * (em.roundedMantissa * 2 ^ k) + 2 ^ k ∧
      2 * (em.roundedMantissa * 2 ^ k) ≤ 2 * M + 2 ^ k := by
  obtain ⟨hwhole, hlt, hround, hsticky⟩ := h
  obtain ⟨mantissa, round, sticky⟩ := em
  have hpos := Nat.two_pow_pos k
  simp only at hwhole hround hsticky
  cases round <;> cases sticky <;>
    simp only [ExtendedMantissa.roundedMantissa, ExtendedMantissa.accuracy,
      Accuracy.roundToNearestEven, Bool.false_eq_true, false_iff, true_iff] at hround hsticky ⊢
  · omega
  · omega
  · rcases Nat.mod_two_eq_zero_or_one mantissa with h | h <;> rw [h, Nat.add_mul] <;> omega
  · rw [Nat.add_mul]
    omega

/-- The exponent that a number is rounded to: such that its mantissa has its full length, or the
least there is. -/
def target (M : Nat) (E : Int) : Int := max (M.log2 + E - 23) (-149)

theorem le_target (M : Nat) (E : Int) : -149 ≤ target M E := Int.le_max_right ..

theorem targetExponent_eq (M : Nat) (E : Int) :
    Format.binary32.targetExponent (totalExponent M E) = target M E := by
  have hmin : Format.binary32.minExponent = -149 := rfl
  have hbits : Format.binary32.mantissaBits = 24 := rfl
  rw [Format.targetExponent, totalExponent, hmin, hbits, target]
  omega

theorem shiftToTargetExponent_eq (M : Nat) (E : Int) :
    shiftToTargetExponent Format.binary32 M E .exact =
      (ExtendedMantissa.mk M false false >>> (target M E - E).toNat,
        E + (target M E - E).toNat) := by
  rw [shiftToTargetExponent, targetExponent_eq]
  rfl

theorem target_mono {M' : Nat} (hM : 0 < M) (h : M ≤ M') (E : Int) : target M E ≤ target M' E := by
  have hlog : M.log2 ≤ M'.log2 :=
    (Nat.le_log2 (by omega)).mpr ((Nat.log2_self_le (Nat.ne_of_gt hM)).trans h)
  rw [target, target]
  omega

theorem target_le (hm : m < 2 ^ 24) (he : -149 ≤ e) : target m e ≤ e := by
  have hlog : m.log2 ≤ 23 := by
    rcases Nat.eq_zero_or_pos m with rfl | hpos
    · decide
    · exact Nat.le_of_lt_succ ((Nat.log2_lt (Nat.ne_of_gt hpos)).mpr hm)
  rw [target]
  omega

theorem log2_mul_two_pow (hM : 0 < M) (k : Nat) : (M * 2 ^ k).log2 = M.log2 + k := by
  rw [Nat.log2_eq_iff (Nat.ne_of_gt (Nat.mul_pos hM (Nat.two_pow_pos k)))]
  obtain ⟨hlow, hhigh⟩ := (Nat.log2_eq_iff (Nat.ne_of_gt hM)).mp rfl
  rw [Nat.pow_add, Nat.add_right_comm, Nat.pow_add]
  exact ⟨Nat.mul_le_mul_right _ hlow, Nat.mul_lt_mul_of_pos_right hhigh (Nat.two_pow_pos k)⟩

theorem target_mul_two_pow (hM : 0 < M) (k : Nat) (E : Int) :
    target (M * 2 ^ k) (E - k) = target M E := by
  rw [target, log2_mul_two_pow hM, target]
  omega

/-- A number rounded at an exponent: shifted to the left, or else to the nearest of the numbers that
have room. -/
structure Rounded (M : Nat) (E t : Int) (R : Nat) : Prop where
  le : R ≤ 2 ^ 24
  normal : 2 ^ 23 ≤ R ∨ t = -149
  lower : 2 * (M * 2 ^ (E - t).toNat) ≤ 2 * (R * 2 ^ (t - E).toNat) + 2 ^ (t - E).toNat
  upper : 2 * (R * 2 ^ (t - E).toNat) ≤ 2 * (M * 2 ^ (E - t).toNat) + 2 ^ (t - E).toNat

theorem mul_two_pow_target_lt (M : Nat) (E : Int) :
    M * 2 ^ (E - target M E).toNat < 2 ^ 24 * 2 ^ (target M E - E).toNat := by
  have htarget : target M E = max (M.log2 + E - 23) (-149) := rfl
  calc M * 2 ^ (E - target M E).toNat
      < 2 ^ (M.log2 + 1) * 2 ^ (E - target M E).toNat :=
        Nat.mul_lt_mul_of_pos_right Nat.lt_log2_self (Nat.two_pow_pos _)
    _ = 2 ^ (M.log2 + 1 + (E - target M E).toNat) := (Nat.pow_add ..).symm
    _ ≤ 2 ^ (24 + (target M E - E).toNat) := Nat.pow_le_pow_right (by decide) (by omega)
    _ = 2 ^ 24 * 2 ^ (target M E - E).toNat := Nat.pow_add ..

theorem le_mul_two_pow_target (hM : 0 < M) (hnormal : target M E ≠ -149) :
    2 ^ 23 * 2 ^ (target M E - E).toNat ≤ M * 2 ^ (E - target M E).toNat := by
  have htarget : target M E = max (M.log2 + E - 23) (-149) := rfl
  calc 2 ^ 23 * 2 ^ (target M E - E).toNat
      = 2 ^ (23 + (target M E - E).toNat) := (Nat.pow_add ..).symm
    _ ≤ 2 ^ (M.log2 + (E - target M E).toNat) := Nat.pow_le_pow_right (by decide) (by omega)
    _ = 2 ^ M.log2 * 2 ^ (E - target M E).toNat := Nat.pow_add ..
    _ ≤ M * 2 ^ (E - target M E).toNat :=
      Nat.mul_le_mul_right _ (Nat.log2_self_le (Nat.ne_of_gt hM))

theorem rounded_first (hM : 0 < M) (E : Int) :
    Rounded M E (target M E) (ExtendedMantissa.mk (M * 2 ^ (E - target M E).toNat) false false >>>
      (target M E - E).toNat).roundedMantissa := by
  obtain ⟨rest, hshifted⟩ := exists_shifted (M * 2 ^ (E - target M E).toNat) (target M E - E).toNat
  obtain ⟨hlower, hupper⟩ := hshifted.nearest
  have hpos := Nat.two_pow_pos (target M E - E).toNat
  refine ⟨?_, ?_, hlower, hupper⟩
  · have hroom := mul_two_pow_target_lt M E
    by_contra hmore
    have hlarge := Nat.mul_le_mul_right (2 ^ (target M E - E).toNat) (Nat.lt_of_not_le hmore)
    omega
  · refine (Decidable.em (target M E = -149)).symm.imp_left fun hnormal => ?_
    have hfull := le_mul_two_pow_target hM hnormal
    by_contra hless
    have hsmall := Nat.mul_le_mul_right (2 ^ (target M E - E).toNat) (Nat.lt_of_not_le hless)
    rw [Nat.succ_mul] at hsmall
    omega

def fitted (R : Nat) (t : Int) : UnpackedFloat :=
  if h : R = 0 then .zero .positive
  else if R < 2 ^ 24 then .finite .positive R t (Nat.pos_of_ne_zero h)
  else .finite .positive (2 ^ 23) (t + 1) (by decide)

/-- The shift behind rounding takes away the digit that is one too many. -/
theorem shifted_eq_fitted (hR : R ≤ 2 ^ 24) (ht : -149 ≤ t) :
    (if h : (ExtendedMantissa.mk R false false >>> (target R t - t).toNat).mantissa = 0 then
        .zero .positive
      else .finite .positive _ (t + (target R t - t).toNat) (Nat.pos_of_ne_zero h)) =
      fitted R t := by
  rcases Nat.lt_or_ge R (2 ^ 24) with hlt | hge
  · have hstay : (target R t - t).toNat = 0 := by
      have := target_le hlt ht
      omega
    rw [hstay, fitted]
    -- the branches hold proofs that `R` is positive, which no rewriting of `R` gets past
    by_cases hzero : R = 0
    · rw [dif_pos hzero]
      exact dif_pos hzero
    · rw [dif_neg hzero, if_pos hlt]
      refine (dif_neg hzero).trans ?_
      simp [HShiftRight.hShiftRight, Nat.repeat]
  · obtain rfl : R = 2 ^ 24 := Nat.le_antisymm hR hge
    have hlog : Nat.log2 (2 ^ 24) = 24 := by decide
    have hone : (target (2 ^ 24) t - t).toNat = 1 := by
      rw [target, hlog]
      omega
    rw [hone]
    rfl

theorem exists_round_eq (hM : 0 < M) (E : Int) : ∃ R, Rounded M E (target M E) R ∧
    UnpackedFloat.round Format.binary32 .positive M E = fitted R (target M E) := by
  have hR := rounded_first hM E
  refine ⟨_, hR, ?_⟩
  have hleft : target (M * 2 ^ (E - target M E).toNat) (E - (E - target M E).toNat) = target M E :=
    target_mul_two_pow hM ..
  have hdown : (target M E - (E - (E - target M E).toNat)).toNat = (target M E - E).toNat := by
    omega
  have hend : E - (E - target M E).toNat + (target M E - E).toNat = target M E := by omega
  rw [← shifted_eq_fitted hR.le (le_target M E), UnpackedFloat.round, targetExponent_eq,
    decreaseExponent]
  dsimp only
  rw [Nat.shiftLeft_eq, roundWithAccuracy, shiftToTargetExponent_eq, hleft, hdown, hend]
  dsimp only
  rw [shiftToTargetExponent_eq]

theorem toNat_pack_finite (h : Canonical m e) (he : e ≤ 104) :
    ((UnpackedFloat.pack Format.binary32 (.finite .positive m e h.pos)).toNat : Int) =
      place m e := by
  obtain ⟨hpos, hlt, hle, hnormal⟩ := h
  have hbits : Format.binary32.mantissaBits = 24 := rfl
  have hfull : m.log2 + 1 = 24 ↔ 2 ^ 23 ≤ m := by
    rw [Nat.succ_inj, Nat.log2_eq_iff (Nat.ne_of_gt hpos)]
    exact and_iff_left hlt
  unfold UnpackedFloat.pack
  dsimp only
  rw [exponentBias_eq, hbits, if_neg (by omega)]
  split
  case isTrue hlog =>
    have hlong := hfull.mp hlog
    rw [toNat_packComponents, BitVec.toNat_ofNat, BitVec.toNat_ofNat, place]
    change ((0 * 2 ^ 31 + _ % 2 ^ 8 * 2 ^ 23 + m % 2 ^ 23 : Nat) : Int) = _
    omega
  case isFalse hlog =>
    have hshort := hfull.not.mp hlog
    rw [toNat_packComponents, BitVec.toNat_ofNat, place]
    change ((0 * 2 ^ 31 + 0 * 2 ^ 23 + m % 2 ^ 23 : Nat) : Int) = _
    omega

theorem toNat_pack_fitted (hR : R ≤ 2 ^ 24) (ht : -149 ≤ t) (hnormal : 2 ^ 23 ≤ R ∨ t = -149)
    (hroom : place R t < 255 * 2 ^ 23) :
    ((UnpackedFloat.pack Format.binary32 (fitted R t)).toNat : Int) = place R t := by
  rw [place] at hroom
  unfold fitted
  split
  case isTrue hzero =>
    obtain rfl : t = -149 := by omega
    rw [hzero]
    rfl
  case isFalse hzero =>
    split
    case isTrue hlt =>
      exact toNat_pack_finite ⟨Nat.pos_of_ne_zero hzero, hlt, ht, hnormal⟩ (by omega)
    case isFalse hge =>
      obtain rfl : R = 2 ^ 24 := Nat.le_antisymm hR (Nat.le_of_not_lt hge)
      rw [toNat_pack_finite ⟨by decide, by decide, by omega, by omega⟩ (by omega), place, place]
      ring

theorem le_toNat_pack_round_negative (M : Nat) (E : Int) :
    2 ^ 31 ≤ (UnpackedFloat.pack Format.binary32
      (UnpackedFloat.round Format.binary32 .negative M E)).toNat := by
  have hsign (exponent : BitVec 8) (mantissa : BitVec 23) :
      2 ^ 31 ≤ (packComponents Format.binary32 .negative exponent mantissa).toNat := by
    rw [toNat_packComponents]
    change 2 ^ 31 ≤ 1 * 2 ^ 31 + _ + _
    omega
  unfold UnpackedFloat.round roundWithAccuracy
  dsimp only
  split
  · exact hsign ..
  · unfold UnpackedFloat.pack
    dsimp only
    split
    · exact hsign ..
    · split <;> exact hsign ..

def lowered (m : Nat) (e d : Int) : Nat := m * 2 ^ (e - min e d).toNat

theorem bits_sub (hx : Written x m e) (hy : Written y c d) :
    bits (x - y) = (UnpackedFloat.pack Format.binary32 (UnpackedFloat.normalize Format.binary32
      ((lowered m e d : Int) - (lowered c d e : Int)) (min e d) .positive)).toNat := by
  change (UnpackedFloat.pack Format.binary32
    (UnpackedFloat.sub Format.binary32 x.toModel.unpack y.toModel.unpack)).toNat = _
  rw [hx.unpack, hy.unpack, lowered, lowered, Int.min_comm d e]
  simp only [UnpackedFloat.sub, decreaseExponent, Nat.shiftLeft_eq]
  rfl

theorem not_pos_sub (hx : Written x m e) (hy : Written y c d)
    (hle : lowered m e d ≤ lowered c d e) : ¬0 < x - y := by
  rw [pos_iff, bits_sub hx hy, UnpackedFloat.normalize]
  rcases Nat.eq_or_lt_of_le hle with heq | hlt
  · rw [heq, Int.sub_self]
    exact fun hpos => Nat.lt_irrefl 0 hpos.1
  · rw [Int.compare_eq_lt.mpr (by omega)]
    exact fun hpos =>
      absurd ((le_toNat_pack_round_negative _ _).trans hpos.2) (by decide)

def restExponent (m : Nat) (e : Int) (c : Nat) (d : Int) : Int :=
  target (lowered m e d - lowered c d e) (min e d)

theorem restExponent_le (h : Canonical m e) (hlt : lowered c d e < lowered m e d) :
    restExponent m e c d ≤ e := by
  have hlowered : target (lowered m e d) (min e d) = target m e := by
    rw [← target_mul_two_pow h.pos (e - min e d).toNat, lowered]
    congr 1
    omega
  calc restExponent m e c d
      ≤ target (lowered m e d) (min e d) := target_mono (by omega) (Nat.sub_le ..) _
    _ = target m e := hlowered
    _ ≤ e := target_le h.lt h.le

/-- A mantissa with the exponent that is rounded to. -/
theorem lowered_mul (m : Nat) (d : Int) (ht : t ≤ e) :
    lowered m e d * 2 ^ (min e d - t).toNat =
      m * 2 ^ (e - t).toNat * 2 ^ (t - min e d).toNat := by
  rw [lowered, Nat.mul_assoc, Nat.mul_assoc, ← Nat.pow_add, ← Nat.pow_add]
  congr 2
  omega

/-- What is left is rounded: the exact difference is off by half of a step at most. -/
theorem exists_bits_sub (hx : Written x m e) (hy : Written y c d)
    (hlt : lowered c d e < lowered m e d) (ht : restExponent m e c d = t) :
    ∃ R ≤ 2 ^ 24,
      2 * (m * 2 ^ (e - t).toNat * 2 ^ (t - min e d).toNat) ≤
        2 * (R * 2 ^ (t - min e d).toNat) + 2 ^ (t - min e d).toNat +
          2 * (lowered c d e * 2 ^ (min e d - t).toNat) ∧
      2 * (R * 2 ^ (t - min e d).toNat) + 2 * (lowered c d e * 2 ^ (min e d - t).toNat) ≤
        2 * (m * 2 ^ (e - t).toNat * 2 ^ (t - min e d).toNat) + 2 ^ (t - min e d).toNat ∧
      (place R t < 255 * 2 ^ 23 → bits (x - y) = place R t) := by
  obtain ⟨R, hR, hround⟩ := exists_round_eq (Nat.sub_pos_of_lt hlt) (min e d)
  have hle := restExponent_le hx.canonical hlt
  rw [restExponent] at ht hle
  rw [ht] at hR hround hle
  -- all of it counted in units of the lower one of `t` and the two exponents
  have hroom := Nat.mul_le_mul_right (2 ^ (min e d - t).toNat) hlt.le
  obtain ⟨hR', hnormal, hlower, hupper⟩ := hR
  rw [Nat.sub_mul] at hlower hupper
  rw [lowered_mul m d hle] at hlower hupper hroom
  refine ⟨R, hR', by omega, by omega, fun hplace => ?_⟩
  rw [bits_sub hx hy, UnpackedFloat.normalize, Int.compare_eq_gt.mpr (by omega)]
  dsimp only
  rw [Int.toNat_sub, hround]
  exact toNat_pack_fitted hR' (ht ▸ le_target ..) hnormal hplace

/-- A rounded number that is less than another is in an earlier place. -/
theorem Canonical.place_lt (h : Canonical m e) (hR : R ≤ 2 ^ 24) (ht : t ≤ e)
    (hlt : R < m * 2 ^ (e - t).toNat) : place R t < place m e := by
  obtain ⟨hpos, hlt', hle, hnormal⟩ := h
  rw [place, place]
  rcases Int.lt_trichotomy (t + 1) e with hfar | hnext | hsame
  · omega
  · have hone : (e - t).toNat = 1 := by omega
    rw [hone] at hlt
    omega
  · have hzero : (e - t).toNat = 0 := by omega
    rw [hzero] at hlt
    omega

/-- A rounded number that is equal to another is in its place, also when its mantissa is one digit
too long. -/
theorem Canonical.place_eq (h : Canonical m e) (hR : R ≤ 2 ^ 24) (hle : -149 ≤ t) (ht : t ≤ e)
    (heq : R = m * 2 ^ (e - t).toNat) : place R t = place m e := by
  obtain ⟨hpos, hlt, -, hnormal⟩ := h
  rw [place, place]
  rcases Int.lt_trichotomy (t + 1) e with hfar | hnext | hsame
  · have hmore : 2 ^ 23 * 2 ^ 2 ≤ m * 2 ^ (e - t).toNat :=
      Nat.mul_le_mul (by omega) (Nat.pow_le_pow_right (by decide) (by omega))
    omega
  · have hone : (e - t).toNat = 1 := by omega
    rw [hone] at heq
    omega
  · have hzero : (e - t).toNat = 0 := by omega
    rw [hzero] at heq
    omega

/-- A number with a mantissa of full length is more than half of a step that is not more than twice
as large as the number. -/
theorem step_lt (hfull : 2 ^ 23 < c) (ht : t ≤ d + 24) (e : Int) :
    2 ^ (t - min e d).toNat < 2 * (lowered c d e * 2 ^ (min e d - t).toNat) := by
  have hpos : 0 < 2 ^ (d - min e d).toNat * 2 ^ (min e d - t).toNat :=
    Nat.mul_pos (Nat.two_pow_pos _) (Nat.two_pow_pos _)
  have hmore := Nat.mul_lt_mul_of_pos_right hfull hpos
  rw [lowered, Int.min_comm d e]
  calc 2 ^ (t - min e d).toNat
      ≤ 2 ^ (24 + ((d - min e d).toNat + (min e d - t).toNat)) :=
        Nat.pow_le_pow_right (by decide) (by omega)
    _ = 2 * (2 ^ 23 * (2 ^ (d - min e d).toNat * 2 ^ (min e d - t).toNat)) := by
        rw [Nat.pow_add, Nat.pow_add]
        ring
    _ < 2 * (c * (2 ^ (d - min e d).toNat * 2 ^ (min e d - t).toNat)) := by omega
    _ = _ := by rw [Nat.mul_assoc c]

theorem lowered_le (h : Canonical m e) (h' : Canonical c d)
    (hle : place m e ≤ place (2 ^ 23) (d + 25)) :
    lowered m e d ≤ 2 ^ (d + 48 - min e d).toNat := by
  obtain ⟨-, hlt, -, hnormal⟩ := h
  have hleast := h'.le
  rw [place, place] at hle
  rw [lowered]
  rcases lt_or_ge (d + 24) e with hhigh | hlow
  · calc m * 2 ^ (e - min e d).toNat
        ≤ 2 ^ 23 * 2 ^ (e - min e d).toNat := Nat.mul_le_mul_right _ (by omega)
      _ = 2 ^ (23 + (e - min e d).toNat) := (Nat.pow_add ..).symm
      _ ≤ _ := Nat.pow_le_pow_right (by decide) (by omega)
  · calc m * 2 ^ (e - min e d).toNat
        ≤ 2 ^ 24 * 2 ^ (e - min e d).toNat := Nat.mul_le_mul_right _ (Nat.le_of_lt hlt)
      _ = 2 ^ (24 + (e - min e d).toNat) := (Nat.pow_add ..).symm
      _ ≤ _ := Nat.pow_le_pow_right (by decide) (by omega)

theorem restExponent_le_of_place_le (h : Canonical m e) (h' : Canonical c d)
    (hle : place m e ≤ place (2 ^ 23) (d + 25)) (hlt : lowered c d e < lowered m e d) :
    restExponent m e c d ≤ d + 24 := by
  have hleast := h'.le
  have hpos : 0 < lowered c d e := Nat.mul_pos h'.pos (Nat.two_pow_pos _)
  have hupper := lowered_le h h' hle
  have hlog : (lowered m e d - lowered c d e).log2 < (d + 48 - min e d).toNat :=
    (Nat.log2_lt (by omega)).mpr (by omega)
  rw [restExponent, target]
  omega

/-- Taking away a number takes something away from a number that is not too much larger. -/
theorem bits_sub_lt (hx : Written x m e) (hy : Written y c d) (hfull : 2 ^ 23 < c)
    (hle : place m e ≤ place (2 ^ 23) (d + 25)) (hpos : 0 < x - y) : bits (x - y) < bits x := by
  have hlt : lowered c d e < lowered m e d :=
    Nat.lt_of_not_le fun hless => not_pos_sub hx hy hless hpos
  obtain ⟨t, ht⟩ : ∃ t, restExponent m e c d = t := ⟨_, rfl⟩
  have he : t ≤ e := ht ▸ restExponent_le hx.canonical hlt
  have hd : t ≤ d + 24 := ht ▸ restExponent_le_of_place_le hx.canonical hy.canonical hle hlt
  obtain ⟨R, hR, -, hupper, hbits⟩ := exists_bits_sub hx hy hlt ht
  have hstep := step_lt hfull hd e
  have hless : R < m * 2 ^ (e - t).toNat :=
    Nat.lt_of_mul_lt_mul_right (a := 2 ^ (t - min e d).toNat) (by omega)
  have hplace := hx.canonical.place_lt hR he hless
  have hsame := hx.place_eq
  have hfinite := hx.lt
  have := hbits (by omega)
  omega

theorem le_restExponent_of_place_lt (h : Canonical m e) (h' : Canonical c d)
    (hlt : place (2 ^ 23) (d + 25) < place m e) :
    lowered c d e < lowered m e d ∧ d + 25 ≤ restExponent m e c d := by
  obtain ⟨-, hlt', -, hnormal⟩ := h
  have hleast := h'.le
  have hsmall := h'.lt
  rw [place, place] at hlt
  have hmin : min e d = d := by omega
  have hlarge : 2 ^ 48 + 2 ^ 25 ≤ lowered m e d := by
    rw [lowered, hmin]
    rcases lt_or_ge (d + 25) e with hhigh | hlow
    · calc 2 ^ 48 + 2 ^ 25 ≤ 2 ^ 23 * 2 ^ 26 := by decide
        _ ≤ m * 2 ^ (e - d).toNat :=
          Nat.mul_le_mul (by omega) (Nat.pow_le_pow_right (by decide) (by omega))
    · calc 2 ^ 48 + 2 ^ 25 = (2 ^ 23 + 1) * 2 ^ 25 := by decide
        _ ≤ m * 2 ^ (e - d).toNat :=
          Nat.mul_le_mul (by omega) (Nat.pow_le_pow_right (by decide) (by omega))
  have hsame : lowered c d e = c := by
    rw [lowered, Int.min_comm, hmin, Int.sub_self]
    exact Nat.mul_one c
  refine ⟨by omega, ?_⟩
  have hlog : 48 ≤ (lowered m e d - lowered c d e).log2 :=
    (Nat.le_log2 (by omega)).mpr (by omega)
  rw [restExponent, target]
  omega

/-- Taking away a number takes nothing away from a number that is too much larger. -/
theorem sub_eq_self (hx : Written x m e) (hy : Written y c d)
    (hlt : place (2 ^ 23) (d + 25) < place m e) : x - y = x := by
  obtain ⟨hmore, hlarge⟩ := le_restExponent_of_place_lt hx.canonical hy.canonical hlt
  obtain ⟨t, ht⟩ : ∃ t, restExponent m e c d = t := ⟨_, rfl⟩
  have he : t ≤ e := ht ▸ restExponent_le hx.canonical hmore
  obtain ⟨R, hR, hlower, hupper, hbits⟩ := exists_bits_sub hx hy hmore ht
  rw [ht] at hlarge
  have hstep : 2 * (lowered c d e * 2 ^ (min e d - t).toNat) < 2 ^ (t - min e d).toNat := by
    have hmin : min e d = d := by omega
    have hzero : (d - t).toNat = 0 := by omega
    rw [lowered, Int.min_comm d e, hmin, hzero, Int.sub_self]
    calc 2 * (c * 2 ^ 0 * 2 ^ 0) < 2 ^ 25 := by
          have := hy.canonical.lt
          omega
      _ ≤ 2 ^ (t - d).toNat := Nat.pow_le_pow_right (by decide) (by omega)
  have hsame : R = m * 2 ^ (e - t).toNat := by
    refine Nat.le_antisymm (Nat.le_of_lt_succ ?_) (Nat.le_of_lt_succ ?_) <;>
      refine Nat.lt_of_mul_lt_mul_right (a := 2 ^ (t - min e d).toNat) ?_ <;>
      rw [Nat.succ_mul] <;> omega
  have hleast := hy.canonical.le
  have hplace := hx.canonical.place_eq hR (by omega) he hsame
  have heq := hx.place_eq
  have hfinite := hx.lt
  have := hbits (by omega)
  exact bits_inj.mp (by omega)

theorem infinity_sub (hbits : bits x = 255 * 2 ^ 23)
    (hx : x.toModel.unpack = .infinity .positive) (hy : Written y c d) : x - y = x := by
  rw [← bits_inj]
  change (UnpackedFloat.pack Format.binary32
    (UnpackedFloat.sub Format.binary32 x.toModel.unpack y.toModel.unpack)).toNat = _
  rw [hx, hy.unpack, hbits]
  rfl

/-- What is taken away decides how large a number may be that it is taken away from over and over:
its bits are compared with those of the power of two that is too large for it. -/
theorem sub_eq_self_of_lt (hy : Written y c d) (hx : 0 < x)
    (hlt : place (2 ^ 23) (d + 25) < bits x) : x - y = x := by
  rcases pos_cases hx with ⟨m, e, hx⟩ | ⟨hbits, hx⟩
  · exact sub_eq_self hx hy (hx.place_eq ▸ hlt)
  · exact infinity_sub hbits hx hy

end PocketTerminal.Single
