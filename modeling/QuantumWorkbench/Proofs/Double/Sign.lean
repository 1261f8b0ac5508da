import Mathlib
import QuantumWorkbench.Proofs.Double.Order

/-!
# Signs of sums and products of doubles

A product with a positive double keeps the sign, and a sum of negative doubles is negative. Rounding
never takes a sum that is not zero to zero, because the operands are multiples of the least double
already; so a sum is negative zero only where both operands are.
-/

namespace QuantumWorkbench.Double

open Float.Model Float.Model.UnpackedFloat

/-! ## Packing -/

theorem unpackSign_packComponents (s : Sign) (exponent : BitVec 11) (mantissa : BitVec 52) :
    Sign.ofBitVec (unpackSign (packComponents Format.binary64 s exponent mantissa)) = s := by
  simp only [unpackSign, packComponents, BitVec.extractLsb]
  rw [BitVec.extractLsb'_append_eq_of_le (by decide), BitVec.extractLsb'_append_eq_of_le (by decide)]
  cases s <;> rfl

/-- A word has a sign unless its exponent is the largest and its mantissa not zero. -/
theorem unpackedSign?_unpack_packComponents (s : Sign) {exponent : BitVec 11} {mantissa : BitVec 52}
    (h : exponent = -1#11 → mantissa = 0#52) :
    unpackedSign? (unpack Format.binary64 (packComponents Format.binary64 s exponent mantissa)) =
      some s := by
  simp only [UnpackedFloat.unpack, unpackMantissa_packComponents, unpackExponent_packComponents,
    unpackSign_packComponents]
  split_ifs with hones hdefined
  · rfl
  · exact absurd (h hones) hdefined
  · rfl
  · rfl
  · rfl

theorem unpack_packComponents_eq_zero {s s' : Sign} {exponent : BitVec 11} {mantissa : BitVec 52}
    (h : unpack Format.binary64 (packComponents Format.binary64 s exponent mantissa) = .zero s') :
    exponent = 0#11 ∧ mantissa = 0#52 := by
  revert h
  simp only [UnpackedFloat.unpack, unpackMantissa_packComponents, unpackExponent_packComponents,
    unpackSign_packComponents]
  split_ifs with hones hdefined hnone hzero
  · exact fun h => nomatch h
  · exact fun h => nomatch h
  · exact fun _ => ⟨hnone, hzero⟩
  · exact fun h => nomatch h
  · exact fun h => nomatch h

/-- A double of a mantissa below the largest and an exponent from the least on. -/
def IsRounded : UnpackedFloat → Prop
  | .finite _ m e _ => m < 2 ^ 53 ∧ -1074 ≤ e
  | _ => True

theorem IsProper.isRounded {u : UnpackedFloat} (hu : IsProper u) : IsRounded u := by
  cases u with
  | finite s m e hm => exact ⟨hu.mantissa_lt, hu.least⟩
  | _ => trivial

/-- Packing keeps the sign. -/
theorem unpackedSign?_unpack_pack (u : UnpackedFloat) :
    unpackedSign? (unpack Format.binary64 (pack Format.binary64 u)) = unpackedSign? u := by
  fun_cases pack Format.binary64 u with
  | case1 => rfl
  | case2 s => exact unpackedSign?_unpack_packComponents s fun _ => rfl
  | case3 s => exact unpackedSign?_unpack_packComponents s fun _ => rfl
  | case4 s m e hm biased hlarge => exact unpackedSign?_unpack_packComponents s fun _ => rfl
  | case5 s m e hm bits biased hsmall hnormal =>
    -- the exponent is below the largest
    have hsmall : ¬ 2 ^ 11 ≤ biased + 1 := hsmall
    refine unpackedSign?_unpack_packComponents s fun h => ?_
    have hones : biased % 2 ^ 11 = 2047 := congrArg BitVec.toNat h
    omega
  | case6 s m e hm bits biased hsmall hsubnormal =>
    exact unpackedSign?_unpack_packComponents s fun h => absurd h (by decide)

/-- Packing makes zero of zero only. -/
theorem eq_zero_of_unpack_pack {u : UnpackedFloat} {s : Sign} (hu : IsRounded u)
    (h : unpack Format.binary64 (pack Format.binary64 u) = .zero s) : u = .zero s := by
  have hsign := congrArg unpackedSign? h
  rw [unpackedSign?_unpack_pack] at hsign
  revert h
  fun_cases pack Format.binary64 u with
  | case1 => exact nomatch hsign
  | case2 s' => exact fun h => absurd (unpack_packComponents_eq_zero h).1 (by decide)
  | case3 s' => exact fun _ => congrArg UnpackedFloat.zero (Option.some.inj hsign)
  | case4 s' m e hm biased hlarge =>
    exact fun h => absurd (unpack_packComponents_eq_zero h).1 (by decide)
  | case5 s' m e hm bits biased hsmall hnormal =>
    -- the exponent is stored above zero
    intro h
    obtain ⟨hlt, hleast⟩ := hu
    have hsmall : ¬ 2 ^ 11 ≤ biased + 1 := hsmall
    have hbiased : biased = (e + 1023 + 52).toNat := rfl
    have hnone : biased % 2 ^ 11 = 0 :=
      congrArg BitVec.toNat (unpack_packComponents_eq_zero h).1
    omega
  | case6 s' m e hm bits biased hsmall hsubnormal =>
    -- the mantissa is stored whole
    intro h
    have hlt : m.log2 + 1 < 53 :=
      lt_of_le_of_ne ((Nat.log2_lt hm.ne').2 hu.1) hsubnormal
    have hwhole : m < 2 ^ 52 := (Nat.log2_lt hm.ne').1 (by omega)
    have hzero : m % 2 ^ 52 = 0 := congrArg BitVec.toNat (unpack_packComponents_eq_zero h).2
    omega

/-! ## Rounding -/

theorem mantissa_shiftRight (em : ExtendedMantissa) (k : ℕ) :
    (em >>> k).mantissa = em.mantissa / 2 ^ k := by
  induction k with
  | zero => exact (Nat.div_one _).symm
  | succ k ih =>
    change (em >>> k).mantissa / 2 = _
    rw [ih, Nat.div_div_eq_div_mul, pow_succ]

theorem mantissa_le_roundedMantissa (em : ExtendedMantissa) :
    em.mantissa ≤ em.roundedMantissa := by
  obtain ⟨m, r, s⟩ := em
  cases r <;> cases s
  · exact le_rfl
  · exact le_rfl
  · exact Nat.le_add_right m (m % 2)
  · exact Nat.le_succ m

theorem mantissa_ofMantissaAndAccuracy (m : ℕ) (a : Accuracy) :
    (ExtendedMantissa.ofMantissaAndAccuracy m a).mantissa = m := by
  cases a with
  | exact => rfl
  | inexact o => cases o <;> rfl

/-- Shifting to the target exponent leaves a mantissa between one and the largest, as long as the
exponent is not below the least. -/
theorem shiftToTargetExponent_bounds {m : ℕ} {e : ℤ} (hm : 0 < m) (he : -1074 ≤ e) (a : Accuracy) :
    let shifted := shiftToTargetExponent Format.binary64 m e a
    0 < shifted.1.mantissa ∧ shifted.1.mantissa < 2 ^ 53 ∧ -1074 ≤ shifted.2 := by
  have htarget : Format.binary64.targetExponent (totalExponent m e) =
      max ((m.log2 : ℤ) + 1 + e - 53) (-1074) := rfl
  obtain ⟨k, hk⟩ : ∃ k, (Format.binary64.targetExponent (totalExponent m e) - e).toNat = k := ⟨_, rfl⟩
  have hlow : k ≤ m.log2 := by omega
  have hhigh : m.log2 < 53 + k := by omega
  simp only [shiftToTargetExponent, shiftToExponent, hk, mantissa_shiftRight,
    mantissa_ofMantissaAndAccuracy]
  refine ⟨Nat.div_pos ?_ (Nat.two_pow_pos k), Nat.div_lt_of_lt_mul ?_, by omega⟩
  · exact (Nat.pow_le_pow_right (by decide) hlow).trans (Nat.log2_self_le hm.ne')
  · rw [← pow_add]
    exact (Nat.log2_lt hm.ne').1 (Nat.add_comm 53 k ▸ hhigh)

/-- **Rounding never makes zero** of a multiple of the least double. -/
theorem roundWithAccuracy_bounds (s : Sign) {m : ℕ} {e : ℤ} (hm : 0 < m) (he : -1074 ≤ e)
    (a : Accuracy) : ∃ m' e' hm',
      roundWithAccuracy Format.binary64 s m e a = .finite s m' e' hm' ∧
        m' < 2 ^ 53 ∧ -1074 ≤ e' := by
  -- the mantissa is shifted, rounded up or not, and shifted again where it got too long
  obtain ⟨hpos, -, hleast⟩ := shiftToTargetExponent_bounds hm he a
  have hrounded := hpos.trans_le (mantissa_le_roundedMantissa _)
  obtain ⟨hpos', hlt', hleast'⟩ := shiftToTargetExponent_bounds hrounded hleast .exact
  exact ⟨_, _, hpos', dif_neg hpos'.ne', hlt', hleast'⟩

theorem unpackedSign?_roundWithAccuracy (s : Sign) (m : ℕ) (e : ℤ) (a : Accuracy) :
    unpackedSign? (roundWithAccuracy Format.binary64 s m e a) = some s := by
  simp only [roundWithAccuracy]
  split <;> rfl

theorem round_bounds (s : Sign) {m : ℕ} {e : ℤ} (hm : 0 < m) (he : -1074 ≤ e) :
    ∃ m' e' hm', round Format.binary64 s m e = .finite s m' e' hm' ∧
      m' < 2 ^ 53 ∧ -1074 ≤ e' := by
  have htarget : Format.binary64.targetExponent (totalExponent m e) =
      max ((m.log2 : ℤ) + 1 + e - 53) (-1074) := rfl
  refine roundWithAccuracy_bounds s ?_ ?_ .exact
  · rw [Nat.shiftLeft_eq]
    exact Nat.mul_pos hm (Nat.two_pow_pos _)
  · omega

/-- A rounded integer multiple of a power of two is zero only where the integer is. -/
theorem normalize_bounds {mantissa : ℤ} (hne : mantissa ≠ 0) {e : ℤ} (he : -1074 ≤ e) (s : Sign) :
    ∃ s' m' e' hm', UnpackedFloat.normalize Format.binary64 mantissa e s = .finite s' m' e' hm' ∧
      m' < 2 ^ 53 ∧ -1074 ≤ e' := by
  unfold UnpackedFloat.normalize
  rcases lt_or_gt_of_ne hne with h | h
  · rw [Int.compare_eq_lt.2 h]
    exact ⟨_, round_bounds .negative (by omega) he⟩
  · rw [Int.compare_eq_gt.2 h]
    exact ⟨_, round_bounds .positive (by omega) he⟩

/-! ## Sums -/

theorem eq_notANumber {u : UnpackedFloat} (h : unpackedSign? u = none) : u = .notANumber := by
  cases u with
  | notANumber => rfl
  | _ => exact nomatch h

theorem add_notANumber (u : UnpackedFloat) :
    UnpackedFloat.add Format.binary64 u .notANumber = .notANumber := by
  cases u <;> rfl

/-- The sum of two finite doubles rounds a sum of multiples of the smaller power of two. -/
theorem add_finite (s s' : Sign) {m m' : ℕ} (e e' : ℤ) (hm : 0 < m) (hm' : 0 < m') :
    ∃ n n' : ℕ, 0 < n ∧ 0 < n' ∧
      UnpackedFloat.add Format.binary64 (.finite s m e hm) (.finite s' m' e' hm') =
        UnpackedFloat.normalize Format.binary64 (s.apply n + s'.apply n') (min e e') .positive := by
  have hpos {m : ℕ} (hm : 0 < m) (k : ℕ) : 0 < m <<< k := by
    rw [Nat.shiftLeft_eq]
    exact Nat.mul_pos hm (Nat.two_pow_pos k)
  exact ⟨_, _, hpos hm _, hpos hm' _, rfl⟩

/-- A sum of negative doubles is negative. -/
theorem unpackedSign?_add_negative {u v : UnpackedFloat} (hu : unpackedSign? u = some .negative)
    (hv : unpackedSign? v = some .negative) :
    unpackedSign? (UnpackedFloat.add Format.binary64 u v) = some .negative := by
  cases u with
  | notANumber => exact nomatch hu
  | zero s =>
    obtain rfl := Option.some.inj hu
    cases v with
    | notANumber => exact nomatch hv
    | zero s' =>
      obtain rfl := Option.some.inj hv
      rfl
    | finite s' m' e' hm' => exact hv
    | infinity s' => exact hv
  | finite s m e hm =>
    obtain rfl := Option.some.inj hu
    cases v with
    | notANumber => exact nomatch hv
    | zero s' => rfl
    | finite s' m' e' hm' =>
      obtain rfl := Option.some.inj hv
      obtain ⟨n, n', hn, hn', hadd⟩ := add_finite .negative .negative e e' hm hm'
      -- the exact sum is negative, so it is rounded with that sign
      have hneg : (-n + -n' : ℤ) < 0 := by omega
      rw [hadd, UnpackedFloat.normalize, Sign.apply, Sign.apply, Int.compare_eq_lt.2 hneg]
      exact unpackedSign?_roundWithAccuracy _ _ _ _
    | infinity s' => exact hv
  | infinity s =>
    obtain rfl := Option.some.inj hu
    cases v with
    | notANumber => exact nomatch hv
    | infinity s' =>
      obtain rfl := Option.some.inj hv
      rfl
    | _ => rfl

/-- **A sum is negative zero only where both operands are**, and rounding keeps it so. -/
theorem add_spec {u v : UnpackedFloat} (hu : IsProper u) (hv : IsProper v) :
    IsRounded (UnpackedFloat.add Format.binary64 u v) ∧
      (UnpackedFloat.add Format.binary64 u v = .zero .negative →
        u = .zero .negative ∧ v = .zero .negative) := by
  cases u with
  | notANumber => exact hu.elim
  | zero s =>
    cases v with
    | notANumber => exact hv.elim
    | zero s' => cases s <;> cases s' <;> exact ⟨trivial, by simp [UnpackedFloat.add]⟩
    | finite s' m' e' hm' => exact ⟨IsProper.isRounded hv, fun h => nomatch h⟩
    | infinity s' => exact ⟨trivial, fun h => nomatch h⟩
  | finite s m e hm =>
    cases v with
    | notANumber => exact hv.elim
    | zero s' => exact ⟨IsProper.isRounded hu, fun h => nomatch h⟩
    | finite s' m' e' hm' =>
      -- two finite doubles cancel to positive zero or round to a finite double
      obtain ⟨n, n', -, -, hadd⟩ := add_finite s s' e e' hm hm'
      rw [hadd]
      by_cases hzero : s.apply n + s'.apply n' = 0
      · rw [hzero]
        exact ⟨trivial, fun h => nomatch h⟩
      · obtain ⟨_, _, _, _, hnormalize, hbounds⟩ :=
          normalize_bounds hzero (le_min hu.least hv.least) .positive
        rw [hnormalize]
        exact ⟨hbounds, fun h => nomatch h⟩
    | infinity s' => exact ⟨trivial, fun h => nomatch h⟩
  | infinity s =>
    cases v with
    | notANumber => exact hv.elim
    | infinity s' => cases s <;> cases s' <;> exact ⟨trivial, fun h => nomatch h⟩
    | _ => exact ⟨trivial, fun h => nomatch h⟩

/-! ## Products -/

/-- A product with a positive double keeps the sign, unless it is undefined. -/
theorem unpackedSign?_mul_positive {u v : UnpackedFloat} {s : Sign}
    (hv : unpackedSign? v = some .positive)
    (h : unpackedSign? (UnpackedFloat.mul Format.binary64 u v) = some s) :
    unpackedSign? u = some s := by
  have hmul (s' : Sign) : s' * .positive = s' := by cases s' <;> rfl
  -- a zero times an infinity is undefined and has no sign, which rules these two pairs out
  cases v with
  | notANumber => exact nomatch hv
  | zero s' =>
    obtain rfl := Option.some.inj hv
    cases u with
    | notANumber => exact h
    | infinity s' => exact nomatch h
    | _ s' => exact (congrArg some (hmul s')).symm.trans h
  | finite s' m' e' hm' =>
    obtain rfl := Option.some.inj hv
    cases u with
    | notANumber => exact h
    | finite s' m e hm =>
      rw [UnpackedFloat.mul, unpackedSign?_roundWithAccuracy, hmul] at h
      exact h
    | _ s' => exact (congrArg some (hmul s')).symm.trans h
  | infinity s' =>
    obtain rfl := Option.some.inj hv
    cases u with
    | notANumber => exact h
    | zero s' => exact nomatch h
    | _ s' => exact (congrArg some (hmul s')).symm.trans h

/-! ## Doubles -/

/-- The sign of a double, unless it is undefined. -/
def sign? (x : Float) : Option Sign := unpackedSign? x.toModel.unpack

section

variable {x y : Float}

theorem isNaN_eq_false_iff (x : Float) : x.isNaN = false ↔ sign? x ≠ none := by
  change x.toModel.unpack.isNaN = false ↔ unpackedSign? x.toModel.unpack ≠ none
  cases x.toModel.unpack <;> simp [UnpackedFloat.isNaN, unpackedSign?]

theorem sign?_eq (hx : x.isNaN = false) : sign? x = some (sign x) := (unpack_spec hx).2.1

theorem sign?_add (x y : Float) :
    sign? (x + y) =
      unpackedSign? (UnpackedFloat.add Format.binary64 x.toModel.unpack y.toModel.unpack) :=
  unpackedSign?_unpack_pack _

theorem sign?_mul (x y : Float) :
    sign? (x * y) =
      unpackedSign? (UnpackedFloat.mul Format.binary64 x.toModel.unpack y.toModel.unpack) :=
  unpackedSign?_unpack_pack _

/-- An undefined operand makes a sum undefined. -/
theorem isNaN_of_add (h : (x + y).isNaN = false) : x.isNaN = false ∧ y.isNaN = false := by
  simp only [isNaN_eq_false_iff, sign?_add] at h ⊢
  refine ⟨fun hx => h ?_, fun hy => h ?_⟩
  · rw [eq_notANumber hx]
    rfl
  · rw [eq_notANumber hy, add_notANumber]
    rfl

/-- An undefined factor makes a product undefined. -/
theorem isNaN_of_mul (h : (x * y).isNaN = false) : x.isNaN = false ∧ y.isNaN = false := by
  simp only [isNaN_eq_false_iff, sign?_mul] at h ⊢
  refine ⟨fun hx => h ?_, fun hy => h ?_⟩
  · rw [eq_notANumber hx]
    rfl
  · rw [eq_notANumber hy]
    cases x.toModel.unpack <;> rfl

theorem sign?_add_negative (hx : sign? x = some .negative) (hy : sign? y = some .negative) :
    sign? (x + y) = some .negative :=
  (sign?_add x y).trans (unpackedSign?_add_negative hx hy)

theorem sign?_mul_positive {s : Sign} (hy : sign? y = some .positive)
    (h : sign? (x * y) = some s) : sign? x = some s :=
  unpackedSign?_mul_positive hy ((sign?_mul x y).symm.trans h)

theorem IsNegativeZero.sign? (hx : IsNegativeZero x) : sign? x = some .negative :=
  congrArg unpackedSign? hx

theorem IsNegativeZero.isNaN (hx : IsNegativeZero x) : x.isNaN = false := by
  rw [isNaN_eq_false_iff, hx.sign?]
  exact Option.some_ne_none _

theorem isNegativeZero_of_add (h : IsNegativeZero (x + y)) :
    IsNegativeZero x ∧ IsNegativeZero y := by
  obtain ⟨hx, hy⟩ := isNaN_of_add h.isNaN
  obtain ⟨hrounded, hzero⟩ := add_spec (isProper_unpack hx) (isProper_unpack hy)
  exact hzero (eq_zero_of_unpack_pack hrounded h)

end

/-! ## Sums of lists -/

theorem isNegativeZero_neg_zero : IsNegativeZero (-0) := rfl

section

variable {xs : List Float}

/-- What both operands of a sum inherit from it, all summands of a list inherit from its sum. -/
theorem forall_of_sum {P : Float → Prop} (hadd : ∀ x y, P (x + y) → P x ∧ P y)
    (h : P (Scalar.sum xs)) : ∀ x ∈ xs, P x := by
  have hrun (xs : List Float) (acc : Float) (h : P (xs.foldl (· + ·) acc)) :
      P acc ∧ ∀ x ∈ xs, P x := by
    induction xs generalizing acc with
    | nil => exact ⟨h, fun _ hx => absurd hx List.not_mem_nil⟩
    | cons x xs ih =>
      obtain ⟨hstep, hrest⟩ := ih (acc + x) h
      obtain ⟨hacc, hx⟩ := hadd acc x hstep
      exact ⟨hacc, List.forall_mem_cons.2 ⟨hx, hrest⟩⟩
  exact (hrun xs _ h).2

/-- **A sum is undefined** where one of its summands is. -/
theorem isNaN_of_sum (h : (Scalar.sum xs).isNaN = false) : ∀ x ∈ xs, x.isNaN = false :=
  forall_of_sum (fun _ _ => isNaN_of_add) h

/-- **A sum is negative zero** only where all of its summands are. -/
theorem isNegativeZero_of_sum (h : IsNegativeZero (Scalar.sum xs)) :
    ∀ x ∈ xs, IsNegativeZero x :=
  forall_of_sum (fun _ _ => isNegativeZero_of_add) h

/-- **A sum of negative doubles is negative.** -/
theorem sign?_sum_negative (h : ∀ x ∈ xs, sign? x = some .negative) :
    sign? (Scalar.sum xs) = some .negative := by
  have hrun (xs : List Float) (acc : Float) (hacc : sign? acc = some .negative)
      (h : ∀ x ∈ xs, sign? x = some .negative) :
      sign? (xs.foldl (· + ·) acc) = some .negative := by
    induction xs generalizing acc with
    | nil => exact hacc
    | cons x xs ih =>
      obtain ⟨hx, hrest⟩ := List.forall_mem_cons.1 h
      exact ih (acc + x) (sign?_add_negative hacc hx) hrest
  exact hrun xs _ isNegativeZero_neg_zero.sign? h

end

end QuantumWorkbench.Double
