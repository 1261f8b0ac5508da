import Mathlib
import QuantumWorkbench.Proofs.Double.Value

/-!
# Rounding numbers from zero to one

A mantissa that is too long for a double is shifted, and what is shifted out decides whether the
mantissa is rounded up. So a number above zero and up to one is rounded to zero exactly where it is
at most half the least double, and otherwise to a double in that range; unless it is very small, the
double is smaller by a factor of `1 - 2⁻⁵³` at the most.
-/

namespace QuantumWorkbench.Double

open Float.Model Float.Model.UnpackedFloat

/-! ## Shifting -/

/-- A mantissa shifted by some places. -/
def shifted (m k : ℕ) : ExtendedMantissa := ExtendedMantissa.ofMantissaAndAccuracy m .exact >>> k

/-- **Nothing that matters is lost by shifting**: counted in halves, the mantissa and the bit behind
it are the quotient, and the last bit tells whether there is a rest. -/
theorem shifted_spec (m k : ℕ) :
    2 * (shifted m k).mantissa + (shifted m k).roundBit.toNat = 2 * m / 2 ^ k ∧
      ((shifted m k).stickyBit = true ↔ 2 * m % 2 ^ k ≠ 0) := by
  induction k with
  | zero =>
    rw [pow_zero, Nat.div_one, Nat.mod_one]
    exact ⟨rfl, iff_of_false Bool.false_ne_true (fun h => h rfl)⟩
  | succ k ih =>
    obtain ⟨hquotient, hrest⟩ := ih
    -- the lowest bit becomes the round bit, and the old round bit joins the sticky bit
    have hstep : shifted m (k + 1) = (shifted m k).shiftRightOne := rfl
    have hbit : (shifted m k).roundBit.toNat = 2 * m / 2 ^ k % 2 := by
      have hlt := (shifted m k).roundBit.toNat_lt
      omega
    rw [hstep]
    constructor
    · change 2 * ((shifted m k).mantissa / 2) + ((shifted m k).mantissa % 2 != 0).toNat = _
      have hlow : ((shifted m k).mantissa % 2 != 0).toNat = (shifted m k).mantissa % 2 := by
        rcases Nat.mod_two_eq_zero_or_one (shifted m k).mantissa with h | h <;> rw [h] <;> rfl
      rw [hlow, pow_succ, ← Nat.div_div_eq_div_mul, ← hquotient]
      have hlt := (shifted m k).roundBit.toNat_lt
      omega
    · change ((shifted m k).roundBit || (shifted m k).stickyBit) = true ↔ _
      rw [Bool.or_eq_true, hrest, Nat.mod_pow_succ, ← hbit]
      cases (shifted m k).roundBit <;> simp

/-- The mantissa that is left after shifting and rounding. -/
def roundedShift (m k : ℕ) : ℕ := (shifted m k).roundedMantissa

/-- **A shifted mantissa is rounded to the nearest**: it is off by half a unit at the most, and
zero where the mantissa was half a unit at the most. -/
theorem roundedShift_spec (m k : ℕ) :
    2 * roundedShift m k * 2 ^ k ≤ 2 * m + 2 ^ k ∧
      2 * m ≤ (2 * roundedShift m k + 1) * 2 ^ k ∧
      (roundedShift m k = 0 ↔ 2 * m ≤ 2 ^ k) := by
  obtain ⟨hquotient, hrest⟩ := shifted_spec m k
  have hdiv := Nat.div_add_mod (2 * m) (2 ^ k)
  have hlt := Nat.mod_lt (2 * m) (Nat.two_pow_pos k)
  have hzero : ∀ q, q = 0 ∧ q * 2 ^ k = 0 ∨ q ≠ 0 ∧ 2 ^ k ≤ q * 2 ^ k := fun q => by
    rcases Nat.eq_zero_or_pos q with rfl | hq
    · exact .inl ⟨rfl, Nat.zero_mul _⟩
    · exact .inr ⟨hq.ne', Nat.le_mul_of_pos_left _ hq⟩
  rw [← hquotient] at hdiv
  unfold roundedShift
  generalize shifted m k = em at hdiv hrest
  generalize 2 * m % 2 ^ k = rest at hdiv hrest hlt
  generalize 2 ^ k = unit at hdiv hlt hzero ⊢
  obtain ⟨q, round, sticky⟩ := em
  have hq := hzero q
  cases round with
  | false =>
    -- less than half a unit behind the mantissa
    have hrounded : ExtendedMantissa.roundedMantissa ⟨q, false, sticky⟩ = q := by
      cases sticky <;> rfl
    rw [hrounded]
    simp only [Bool.toNat_false, add_zero] at hdiv
    refine ⟨?_, ?_, ?_⟩ <;> grind
  | true =>
    simp only [Bool.toNat_true] at hdiv
    cases sticky with
    | false =>
      -- half a unit goes to the even neighbour
      have hrounded : ExtendedMantissa.roundedMantissa ⟨q, true, false⟩ = q + q % 2 := rfl
      rw [hrounded]
      have hexact : rest = 0 := by simpa using hrest
      rcases Nat.mod_two_eq_zero_or_one q with heven | hodd
      · rw [heven, add_zero]
        refine ⟨?_, ?_, ?_⟩ <;> grind
      · rw [hodd]
        refine ⟨?_, ?_, ?_⟩ <;> grind
    | true =>
      have hrounded : ExtendedMantissa.roundedMantissa ⟨q, true, true⟩ = q + 1 := rfl
      rw [hrounded]
      refine ⟨?_, ?_, ?_⟩ <;> grind

/-! ## The stored result -/

/-- The exponent that a number is rounded at: its mantissa gets fifty-three bits, unless the
exponent would fall below the least. -/
def roundingExponent (m : ℕ) (e : ℤ) : ℤ := max (m.log2 + 1 + e - 53) (-1074)

section

variable {m k : ℕ} {e : ℤ}

/-- The rounded mantissa fits, or is one bit too long because it was rounded up. -/
theorem roundedShift_bounds (hm : 0 < m) (hk : roundingExponent m e = e + k) :
    roundedShift m k ≤ 2 ^ 53 ∧ (e + k = -1074 ∨ 2 ^ 52 ≤ roundedShift m k) := by
  obtain ⟨hle, hge, -⟩ := roundedShift_spec m k
  have hunit := Nat.two_pow_pos k
  unfold roundingExponent at hk
  constructor
  · have hlt : m < 2 ^ 53 * 2 ^ k := by
      rw [← pow_add]
      exact (Nat.log2_lt hm.ne').1 (by omega)
    have hrounded : 2 * roundedShift m k * 2 ^ k < (2 * 2 ^ 53 + 1) * 2 ^ k := by
      rw [add_mul, one_mul]
      omega
    have hrounded := Nat.lt_of_mul_lt_mul_right hrounded
    omega
  · by_cases hleast : e + k = -1074
    · exact .inl hleast
    · -- above the least exponent the mantissa has its leading bit
      have hlog : 52 + k = m.log2 := by omega
      have hge' : 2 ^ 52 * 2 ^ k ≤ m := by
        rw [← pow_add, hlog]
        exact Nat.log2_self_le hm.ne'
      have hrounded : 2 * 2 ^ 52 * 2 ^ k ≤ (2 * roundedShift m k + 1) * 2 ^ k := by
        rw [mul_assoc]
        omega
      have hrounded := Nat.le_of_mul_le_mul_right hrounded hunit
      exact .inr (by omega)

theorem roundWithAccuracy_eq (s : Sign) (hk : roundingExponent m e = e + k) :
    roundWithAccuracy Format.binary64 s m e .exact =
      let again := (roundingExponent (roundedShift m k) (e + k) - (e + k)).toNat
      if h : roundedShift m k / 2 ^ again = 0 then .zero s
      else .finite s (roundedShift m k / 2 ^ again) (e + k + again) (Nat.pos_of_ne_zero h) := by
  have htarget (m : ℕ) (e : ℤ) :
      Format.binary64.targetExponent (totalExponent m e) = roundingExponent m e := rfl
  have hamount : (e + k - e).toNat = k := by omega
  simp only [roundWithAccuracy, shiftToTargetExponent, shiftToExponent, htarget, hk, hamount,
    mantissa_shiftRight, mantissa_ofMantissaAndAccuracy]
  rfl

/-- **Rounding stores the shifted and rounded mantissa**: one that is a bit too long is even, so
that it is shifted once more without loss. -/
theorem roundWithAccuracy_spec (s : Sign) (hm : 0 < m) (hk : roundingExponent m e = e + k) :
    (roundedShift m k = 0 ∧ roundWithAccuracy Format.binary64 s m e .exact = .zero s) ∨
      roundedShift m k ≠ 0 ∧ ∃ m' e' hm',
        roundWithAccuracy Format.binary64 s m e .exact = .finite s m' e' hm' ∧
          -1074 ≤ e' ∧ m' < 2 ^ 53 ∧ (e' = -1074 ∨ 2 ^ 52 ≤ m') ∧
          (m' : ℚ) * 2 ^ e' = roundedShift m k * 2 ^ (e + k) := by
  have hleast : -1074 ≤ e + k := hk ▸ le_max_right _ _
  obtain ⟨hlong, hnormal⟩ := roundedShift_bounds hm hk
  rw [roundWithAccuracy_eq s hk]
  generalize roundedShift m k = rounded at hlong hnormal
  rcases Nat.eq_zero_or_pos rounded with hzero | hpos
  · exact .inl ⟨hzero, dif_pos (by rw [hzero, Nat.zero_div])⟩
  · refine .inr ⟨hpos.ne', ?_⟩
    rcases hlong.lt_or_eq with hlt | rfl
    · -- the mantissa fits, and the second rounding shifts nothing
      have hagain : (roundingExponent rounded (e + k) - (e + k)).toNat = 0 := by
        have hlog : rounded.log2 < 53 := (Nat.log2_lt hpos.ne').2 hlt
        unfold roundingExponent
        omega
      simp only [hagain, pow_zero, Nat.div_one, dif_neg hpos.ne']
      exact ⟨rounded, e + k + (0 : ℕ), hpos, rfl, by omega, hlt, by omega, by simp⟩
    · -- rounding carried into one more bit, and the second rounding shifts a zero out
      have hagain : (roundingExponent (2 ^ 53) (e + k) - (e + k)).toNat = 1 := by
        unfold roundingExponent
        rw [Nat.log2_two_pow]
        omega
      simp only [hagain]
      refine ⟨2 ^ 52, e + k + 1, by decide, dif_neg (by decide), by omega, by decide,
        .inr le_rfl, ?_⟩
      rw [zpow_add_one₀ two_ne_zero]
      push_cast
      ring

end

/-! ## Numbers from zero to one -/

/-- Half the least double above zero. -/
def halfLeast : ℚ := 2 ^ (-1075 : ℤ)

/-- The least double that is stored with all of its bits. -/
def leastNormal : ℚ := 2 ^ (-1022 : ℤ)

/-- The part of a number that rounding leaves at the least. -/
def kept : ℚ := 1 - 2 ^ (-53 : ℤ)

theorem halfLeast_lt_leastNormal : halfLeast < leastNormal :=
  zpow_lt_zpow_right₀ one_lt_two (by decide)

theorem leastNormal_pos : 0 < leastNormal := zpow_pos two_pos _

theorem kept_pos : 0 < kept := by norm_num [kept]

theorem kept_le_one : kept ≤ 1 := by norm_num [kept]

/-- What a number above zero and up to one is rounded to. -/
inductive Rounds (v : ℚ) : UnpackedFloat → Prop where
  /-- Up to half the least double, to zero. -/
  | zero (hsmall : v ≤ halfLeast) : Rounds v (.zero .positive)
  /-- Above it, to a double up to one, not far below the number where that is normal. -/
  | finite {m e hm} (hlarge : halfLeast < v) (hstored : IsStored m e) (hle : (m : ℚ) * 2 ^ e ≤ 1)
      (hnear : leastNormal ≤ v → v * kept ≤ m * 2 ^ e) : Rounds v (.finite .positive m e hm)

section

variable {m k : ℕ} {e : ℤ}

/-- A number is at least the power of two that belongs to its leading bit. -/
theorem two_zpow_log2_le (hm : 0 < m) (e : ℤ) : (2 : ℚ) ^ (m.log2 + e) ≤ m * 2 ^ e := by
  rw [zpow_add₀ two_ne_zero, zpow_natCast]
  gcongr
  exact_mod_cast Nat.log2_self_le hm.ne'

/-- The step between the numbers that may be the result is one part in `2⁵³` at the most. -/
theorem half_step_le (hm : 0 < m) (hnormal : leastNormal ≤ m * 2 ^ e) :
    (2 : ℚ) ^ (roundingExponent m e - 1) ≤ m * 2 ^ e * 2 ^ (-53 : ℤ) := by
  unfold roundingExponent
  rcases max_choice ((m.log2 : ℤ) + 1 + e - 53) (-1074) with h | h <;> rw [h]
  · rw [show (m.log2 : ℤ) + 1 + e - 53 - 1 = m.log2 + e + -53 by ring, zpow_add₀ two_ne_zero]
    gcongr
    exact two_zpow_log2_le hm e
  · rw [show (-1074 - 1 : ℤ) = -1022 + -53 by ring, zpow_add₀ two_ne_zero]
    gcongr
    exact hnormal

theorem mul_two_zpow_neg_le_one_iff {m n : ℕ} : (m : ℚ) * 2 ^ (-n : ℤ) ≤ 1 ↔ m ≤ 2 ^ n := by
  rw [zpow_neg, zpow_natCast, ← div_eq_mul_inv, div_le_one (by positivity)]
  exact_mod_cast Iff.rfl

/-- Rounding stays up to one, as one is a multiple of the step. -/
theorem roundedShift_mul_le (hm : 0 < m) (hk : roundingExponent m e = e + k)
    (hle : (m : ℚ) * 2 ^ e ≤ 1) : (roundedShift m k : ℚ) * 2 ^ (e + k) ≤ 1 := by
  have hlog : (m.log2 : ℤ) + e ≤ 0 := by
    have hpow := (two_zpow_log2_le hm e).trans hle
    rwa [zpow_le_one_iff_right₀ one_lt_two] at hpow
  obtain ⟨n, hn⟩ : ∃ n : ℕ, e + k = -n := by
    refine ⟨(-(e + k)).toNat, ?_⟩
    unfold roundingExponent at hk
    omega
  have hwhole : m ≤ 2 ^ n * 2 ^ k := by
    rw [← pow_add, ← mul_two_zpow_neg_le_one_iff, show (-(n + k : ℕ) : ℤ) = e by omega]
    exact hle
  have hrounded : 2 * roundedShift m k * 2 ^ k ≤ (2 * 2 ^ n + 1) * 2 ^ k := by
    calc 2 * roundedShift m k * 2 ^ k ≤ 2 * m + 2 ^ k := (roundedShift_spec m k).1
      _ ≤ 2 * (2 ^ n * 2 ^ k) + 2 ^ k := by gcongr
      _ = (2 * 2 ^ n + 1) * 2 ^ k := by ring
  have hrounded := Nat.le_of_mul_le_mul_right hrounded (Nat.two_pow_pos k)
  rw [hn, mul_two_zpow_neg_le_one_iff]
  omega

/-- **A number above zero and up to one is rounded** to zero or to a double in that range. -/
theorem rounds_roundWithAccuracy (hm : 0 < m) (he : e ≤ roundingExponent m e)
    (hle : (m : ℚ) * 2 ^ e ≤ 1) :
    Rounds (m * 2 ^ e) (roundWithAccuracy Format.binary64 .positive m e .exact) := by
  obtain ⟨k, hk⟩ := Int.le.dest he
  have hleast : -1074 ≤ e + k := hk ▸ le_max_right _ _
  obtain ⟨-, hbelow, hzero⟩ := roundedShift_spec m k
  -- half a step, in which all bounds are given
  have hhalf : (2 : ℚ) ^ (e + k - 1) = 2 ^ k * 2 ^ e / 2 := by
    rw [zpow_sub_one₀ two_ne_zero, zpow_add₀ two_ne_zero, zpow_natCast]
    ring
  have hpos : (0 : ℚ) < 2 ^ e := by positivity
  rcases roundWithAccuracy_spec .positive hm hk.symm with
    ⟨hrounded, hresult⟩ | ⟨hrounded, m', e', hm', hresult, hleast', hlt, hnormal, hvalue⟩
  · rw [hresult]
    refine .zero ?_
    have hleast : e + k - 1 = -1075 := by
      obtain hleast | hlong := (roundedShift_bounds hm hk.symm).2
      · omega
      · exact absurd hlong (by omega)
    have hsmall : (2 * m : ℚ) ≤ 2 ^ k := by exact_mod_cast hzero.1 hrounded
    rw [halfLeast, ← hleast, hhalf]
    nlinarith
  · rw [hresult]
    have hle' : (m' : ℚ) * 2 ^ e' ≤ 1 := hvalue ▸ roundedShift_mul_le hm hk.symm hle
    have hgreatest : e' ≤ 0 := by
      have hpow : (2 : ℚ) ^ e' ≤ m' * 2 ^ e' :=
        le_mul_of_one_le_left (by positivity) (by exact_mod_cast hm')
      rw [← zpow_le_one_iff_right₀ (one_lt_two (α := ℚ))]
      exact hpow.trans hle'
    refine .finite ?_ ⟨hleast', by omega, hlt, hnormal⟩ hle' fun hnormal => ?_
    · have hlarge : (2 ^ k : ℚ) < 2 * m := by exact_mod_cast lt_of_not_ge (mt hzero.2 hrounded)
      calc halfLeast ≤ 2 ^ (e + k - 1) := zpow_le_zpow_right₀ one_le_two (by omega)
        _ < m * 2 ^ e := by rw [hhalf]; nlinarith
    · have hstep := half_step_le hm hnormal
      have hbelow : (2 * m : ℚ) ≤ (2 * roundedShift m k + 1) * 2 ^ k := by exact_mod_cast hbelow
      have hscaled := mul_le_mul_of_nonneg_right hbelow hpos.le
      rw [← hk, hhalf] at hstep
      calc m * 2 ^ e * kept = m * 2 ^ e - m * 2 ^ e * 2 ^ (-53 : ℤ) := mul_one_sub _ _
        _ ≤ m * 2 ^ e - 2 ^ k * 2 ^ e / 2 := sub_le_sub_left hstep _
        _ ≤ roundedShift m k * (2 ^ k * 2 ^ e) := by linarith
        _ = m' * 2 ^ e' := by rw [hvalue, add_comm, zpow_add₀ two_ne_zero, zpow_natCast]

theorem log2_shiftLeft (hm : m ≠ 0) (k : ℕ) : (m <<< k).log2 = m.log2 + k := by
  induction k with
  | zero => rfl
  | succ k ih =>
    have hne : m <<< k ≠ 0 := by
      rw [Nat.shiftLeft_eq]
      exact Nat.mul_ne_zero hm (Nat.two_pow_pos k).ne'
    rw [Nat.shiftLeft_succ, Nat.log2_two_mul hne, ih, add_assoc]

/-- Rounding appends zeros to a short mantissa first, which changes neither the number nor the
exponent it is rounded at. -/
theorem exists_round_eq (s : Sign) (hm : 0 < m) (e : ℤ) :
    ∃ n d, 0 < n ∧ d ≤ roundingExponent n d ∧ (n : ℚ) * 2 ^ d = m * 2 ^ e ∧
      round Format.binary64 s m e = roundWithAccuracy Format.binary64 s n d .exact := by
  obtain ⟨k, hk⟩ : ∃ k, (e - roundingExponent m e).toNat = k := ⟨_, rfl⟩
  have hround : round Format.binary64 s m e =
      roundWithAccuracy Format.binary64 s (m <<< k) (e - k) .exact := by
    subst hk
    rfl
  -- shifting left keeps the value, and the exponent that is rounded to
  have hvalue : ((m <<< k : ℕ) : ℚ) * 2 ^ (e - k) = m * 2 ^ e := by
    rw [Nat.shiftLeft_eq, zpow_sub₀ two_ne_zero, zpow_natCast]
    push_cast
    field_simp
  have hexponent : roundingExponent (m <<< k) (e - k) = roundingExponent m e := by
    unfold roundingExponent
    rw [log2_shiftLeft hm.ne']
    push_cast
    ring_nf
  have hpos : 0 < m <<< k := by
    rw [Nat.shiftLeft_eq]
    exact Nat.mul_pos hm (Nat.two_pow_pos k)
  exact ⟨_, _, hpos, by omega, hvalue, hround⟩

/-- **Rounding any fraction from zero to one**, however its mantissa and exponent are given. -/
theorem rounds_round (hm : 0 < m) (hle : (m : ℚ) * 2 ^ e ≤ 1) :
    Rounds (m * 2 ^ e) (round Format.binary64 .positive m e) := by
  obtain ⟨n, d, hn, hd, hvalue, hround⟩ := exists_round_eq .positive hm e
  rw [hround, ← hvalue]
  exact rounds_roundWithAccuracy hn hd (hvalue ▸ hle)

end

/-! ## Doubles that are rounded -/

theorem Rounds.unpack_pack {v : ℚ} {u : UnpackedFloat} (h : Rounds v u) :
    unpack Format.binary64 (pack Format.binary64 u) = u := by
  cases h with
  | zero => rfl
  | finite _ hstored => exact unpack_pack_finite _ _ hstored

section

variable {x y : Float} {v : ℚ}

/-- A rounded number is in the range exactly where it is more than half the least double. -/
theorem Rounds.inUnit_iff (h : Rounds v x.toModel.unpack) : InUnit x ↔ halfLeast < v := by
  rw [Double.inUnit_iff]
  generalize x.toModel.unpack = u at h
  cases h with
  | zero hsmall =>
    refine iff_of_false ?_ (not_lt.2 hsmall)
    rintro ⟨m, e, hm, hu, -⟩
    cases hu
  | finite hlarge hstored hle =>
    exact iff_of_true ⟨_, _, _, rfl, hstored, hle⟩ hlarge

/-- Elsewhere it is zero. -/
theorem Rounds.eq_zero (h : Rounds v x.toModel.unpack) (hsmall : v ≤ halfLeast) : x = 0 := by
  generalize hu : x.toModel.unpack = u at h
  cases h with
  | zero => exact eq_zero_of_unpack_eq hu
  | finite hlarge => exact absurd hsmall (not_le.2 hlarge)

/-- Unless it is very small, hardly anything is lost. -/
theorem Rounds.mul_kept_le (h : Rounds v x.toModel.unpack) (hnormal : leastNormal ≤ v) :
    v * kept ≤ value x := by
  unfold value
  generalize x.toModel.unpack = u at h
  cases h with
  | zero hsmall => exact absurd (hnormal.trans hsmall) (not_le.2 halfLeast_lt_leastNormal)
  | finite _ _ _ hnear =>
    exact hnear hnormal

end

section

variable {x y : Float} {m m' : ℕ} {e e' : ℤ}

/-- The product of two stored mantissas is never too short. -/
theorem IsStored.add_le_roundingExponent (h : IsStored m e) (h' : IsStored m' e') (hm : 0 < m)
    (hm' : 0 < m') : e + e' ≤ roundingExponent (m * m') (e + e') := by
  obtain ⟨-, -, -, hnormal⟩ := h
  obtain ⟨-, -, -, hnormal'⟩ := h'
  unfold roundingExponent
  rcases hnormal with rfl | hlong
  · rcases hnormal' with rfl | hlong'
    · omega
    · have hlog : 52 ≤ (m * m').log2 :=
        (Nat.le_log2 (Nat.mul_pos hm hm').ne').2 (hlong'.trans (Nat.le_mul_of_pos_left m' hm))
      omega
  · have hlog : 52 ≤ (m * m').log2 :=
      (Nat.le_log2 (Nat.mul_pos hm hm').ne').2 (hlong.trans (Nat.le_mul_of_pos_right m hm'))
    omega

/-- **A product of doubles from zero to one** is rounded. -/
theorem rounds_mul (hx : InUnit x) (hy : InUnit y) :
    Rounds (value x * value y) (x * y).toModel.unpack := by
  obtain ⟨m, e, hm, hu, hstored, hle⟩ := Double.inUnit_iff.1 hx
  obtain ⟨m', e', hm', hu', hstored', hle'⟩ := Double.inUnit_iff.1 hy
  have hmul : (x * y).toModel.unpack = unpack Format.binary64 (pack Format.binary64
      (roundWithAccuracy Format.binary64 .positive (m * m') (e + e') .exact)) := by
    change unpack _ (pack _ (UnpackedFloat.mul _ x.toModel.unpack y.toModel.unpack)) = _
    rw [hu, hu']
    rfl
  have hvalue : value x * value y = (m * m' : ℕ) * 2 ^ (e + e') := by
    rw [value_eq hu, value_eq hu', zpow_add₀ two_ne_zero]
    push_cast
    ring
  -- a product of two doubles up to one stays up to one, so it is not rounded to infinity
  have hproduct : value x * value y ≤ 1 := by
    rw [value_eq hu, value_eq hu']
    exact mul_le_one₀ hle (by positivity) hle'
  have hrounds := rounds_roundWithAccuracy (Nat.mul_pos hm hm')
    (hstored.add_le_roundingExponent hstored' hm hm') (hvalue ▸ hproduct)
  rw [hmul, hrounds.unpack_pack, hvalue]
  exact hrounds

/-- Below one the mantissa is below the power of two that one has for a mantissa. -/
theorem IsStored.exists_exponent (h : IsStored m e) (hlt : (m : ℚ) * 2 ^ e < 1) :
    ∃ n : ℕ, e = -(n + 53 : ℕ) ∧ m < 2 ^ (n + 53) := by
  have he : e ≤ -53 := by
    by_contra he
    have hlong : 2 ^ 52 ≤ m := by
      obtain ⟨-, -, -, hnormal⟩ := h
      omega
    have hone : (1 : ℚ) ≤ m * 2 ^ e := by
      calc (1 : ℚ) = 2 ^ 52 * 2 ^ (-52 : ℤ) := by norm_num
        _ ≤ m * 2 ^ e := by
          gcongr
          · exact_mod_cast hlong
          · exact one_le_two
          · omega
    exact absurd hone (not_le.2 hlt)
  refine ⟨(-53 - e).toNat, by omega, h.mantissa_lt.trans_le ?_⟩
  exact Nat.pow_le_pow_right (by decide) (Nat.le_add_left 53 _)

/-- **What a double below one leaves of one** is rounded. -/
theorem rounds_one_sub (hx : InUnit x) (hlt : value x < 1) :
    Rounds (1 - value x) (1 - x).toModel.unpack := by
  obtain ⟨m, e, hm, hu, hstored, -⟩ := Double.inUnit_iff.1 hx
  rw [value_eq hu] at hlt ⊢
  obtain ⟨n, rfl, hbelow⟩ := hstored.exists_exponent hlt
  have hpos : 0 < 2 ^ (n + 53) - m := Nat.sub_pos_of_lt hbelow
  -- one is written with the exponent of the other, which is the smaller
  have hsub : UnpackedFloat.sub Format.binary64 (.finite .positive (2 ^ 52) (-52) (by decide))
      (.finite .positive m (-(n + 53 : ℕ)) hm) =
        round Format.binary64 .positive (2 ^ (n + 53) - m) (-(n + 53 : ℕ)) := by
    have hmin : min (-52) (-(n + 53 : ℕ) : ℤ) = -(n + 53 : ℕ) := by omega
    have hshift : (-52 - -(n + 53 : ℕ) : ℤ).toNat = n + 1 := by omega
    have hone : 2 ^ 52 <<< (n + 1) = 2 ^ (n + 53) := by
      rw [Nat.shiftLeft_eq, ← pow_add]
      congr 1
      omega
    have hmantissa : ((2 ^ (n + 53) : ℕ) : ℤ) - m = (2 ^ (n + 53) - m : ℕ) := by omega
    simp only [UnpackedFloat.sub, decreaseExponent, hmin, hshift, hone, sub_self, Int.toNat_zero,
      Nat.shiftLeft_zero, Sign.apply, hmantissa, UnpackedFloat.normalize,
      Int.compare_eq_gt.2 (Int.natCast_pos.2 hpos), Int.toNat_natCast]
  have hunpack : (1 - x).toModel.unpack = unpack Format.binary64 (pack Format.binary64
      (round Format.binary64 .positive (2 ^ (n + 53) - m) (-(n + 53 : ℕ)))) := by
    rw [← hsub, ← hu]
    rfl
  have hvalue : (1 : ℚ) - m * 2 ^ (-(n + 53 : ℕ) : ℤ) =
      (2 ^ (n + 53) - m : ℕ) * 2 ^ (-(n + 53 : ℕ) : ℤ) := by
    rw [Nat.cast_sub hbelow.le, zpow_neg, zpow_natCast]
    push_cast
    field_simp
  have hrounds := rounds_round hpos (hvalue ▸ sub_le_self 1 (by positivity))
  rw [hunpack, hrounds.unpack_pack, hvalue]
  exact hrounds

end

end QuantumWorkbench.Double
