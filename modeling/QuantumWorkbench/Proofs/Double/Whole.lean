import Mathlib
import QuantumWorkbench.Proofs.Double.Monotone

/-!
# Whole numbers among doubles

From zero on the finite doubles are in the order of the numbers they stand for, equal where these
are equal, and cut off to a word they give the whole part. So a double stands for a natural number
exactly where it is equal to the double of its own whole part.
-/

namespace QuantumWorkbench.Double

open Float.Model Float.Model.UnpackedFloat

/-- A finite double from zero on; negative zero is one of them. -/
inductive FromZero : UnpackedFloat → Prop
  | zero (s : Sign) : FromZero (.zero s)
  | finite {m e hm} (hstored : IsStored m e) : FromZero (.finite .positive m e hm)

namespace FromZero

variable {u v : UnpackedFloat}

theorem isFinite (hu : FromZero u) : u.isFinite = true := by
  cases hu with
  | zero s => rfl
  | finite hstored => rfl

theorem place_lt_end (hu : FromZero u) : unpackedPlace u < endSteps := by
  cases hu with
  | zero s => exact (by decide : (0 : ℤ) < endSteps)
  | finite hstored => exact hstored.steps_lt

theorem place_nonneg (hu : FromZero u) : 0 ≤ unpackedPlace u := by
  cases hu with
  | zero s => exact le_rfl
  | @finite m e hm hstored => exact (hstored.steps_pos hm).le

theorem value_nonneg (hu : FromZero u) : 0 ≤ unpackedValue u := by
  cases hu with
  | zero s => exact le_rfl
  | finite hstored =>
    rw [unpackedValue, Sign.apply, Int.cast_natCast]
    positivity

/-- **From zero on places are in the order of values.** -/
theorem place_le_iff (hu : FromZero u) (hv : FromZero v) :
    unpackedPlace u ≤ unpackedPlace v ↔ unpackedValue u ≤ unpackedValue v := by
  cases hu with
  | zero s => exact iff_of_true hv.place_nonneg hv.value_nonneg
  | @finite m e hm hstored =>
    cases hv with
    | zero s =>
      have hvalue : (0 : ℚ) < unpackedValue (.finite .positive m e hm) := by
        rw [unpackedValue, Sign.apply, Int.cast_natCast]
        positivity
      exact iff_of_false (not_le.2 (hstored.steps_pos hm)) (not_le.2 hvalue)
    | @finite m' e' hm' hstored' =>
      simp only [unpackedValue, Sign.apply, Int.cast_natCast]
      exact hstored.steps_le_iff hstored'

/-- Cutting off what is behind the point. -/
theorem toInt_eq (hu : FromZero u) (low high : ℤ) : u.toInt low high = ⌊unpackedValue u⌋ := by
  cases hu with
  | zero s => exact Int.floor_zero.symm
  | @finite m e hm hstored =>
    -- one of the two shifts is by nothing: left for whole numbers, right for the others
    have hcut : (UnpackedFloat.finite .positive m e hm).toInt low high =
        (m <<< e.toNat / 2 ^ (-e).toNat : ℕ) := by
      have hplaces : (0 - (e - e.toNat)).toNat = (-e).toNat := by omega
      have hshift := mantissa_shiftRight
        (ExtendedMantissa.ofMantissaAndAccuracy (m <<< e.toNat) .exact) (0 - (e - e.toNat)).toNat
      rw [mantissa_ofMantissaAndAccuracy, hplaces] at hshift
      rw [← hshift, ← hplaces, UnpackedFloat.toInt, roundToInt, decreaseExponent, sub_zero]
      rfl
    have hvalue : (m : ℚ) * 2 ^ e = (m <<< e.toNat : ℕ) / (2 ^ (-e).toNat : ℕ) := by
      obtain ⟨k, rfl | rfl⟩ := e.eq_nat_or_neg
      · simp [Nat.shiftLeft_eq]
      · simp [div_eq_mul_inv]
    rw [hcut, unpackedValue, Sign.apply, Int.cast_natCast, hvalue, Rat.floor_natCast_div_natCast]
    exact Int.natCast_ediv _ _

end FromZero

section

variable {x y : Float} {n : ℕ}

/-- What is not below zero nor above a finite double is finite. -/
theorem fromZero_of_le (hx : 0 ≤ x) (hle : x ≤ y) (hy : FromZero y.toModel.unpack) :
    FromZero x.toModel.unpack := by
  obtain ⟨hxdef, hydef⟩ := isNaN_eq_false_of_le hle
  rw [zero_le_iff hxdef, ← unpackedPlace_unpack hxdef] at hx
  rw [le_iff_place_le hxdef hydef, ← unpackedPlace_unpack hxdef,
    ← unpackedPlace_unpack hydef] at hle
  have hproper := isProper_unpack hxdef
  generalize x.toModel.unpack = u at hproper hx hle
  cases u with
  | notANumber => exact hproper.elim
  | zero s => exact .zero s
  | finite s m e hm =>
    obtain rfl := sign_of_place_nonneg hproper hx
    exact .finite hproper
  | infinity s =>
    obtain rfl := eq_positive_of_infinity hx
    exact absurd hle (not_le.2 hy.place_lt_end)

/-- A finite double that does not stand for a negative number. -/
theorem fromZero_of_value (hfinite : x.isFinite = true) (hx : 0 ≤ value x) :
    FromZero x.toModel.unpack := by
  have hproper := isProper_unpack (isNaN_of_isFinite hfinite)
  change x.toModel.unpack.isFinite = true at hfinite
  change 0 ≤ unpackedValue x.toModel.unpack at hx
  generalize x.toModel.unpack = u at hproper hfinite hx
  cases u with
  | notANumber => exact hproper.elim
  | zero s => exact .zero s
  | infinity s => cases hfinite
  | finite s m e hm =>
    cases s with
    | positive => exact .finite hproper
    | negative =>
      have hneg : unpackedValue (.finite .negative m e hm) < 0 := by
        rw [unpackedValue, Sign.apply, Int.cast_neg, neg_mul]
        exact neg_neg_of_pos (by positivity)
      exact absurd hx (not_le.2 hneg)

theorem FromZero.isNaN (hx : FromZero x.toModel.unpack) : x.isNaN = false :=
  isNaN_of_isFinite hx.isFinite

theorem fromZero_ofNat (hn : n < 2 ^ 53) : FromZero (ofNat n).toModel.unpack := by
  rcases Nat.eq_zero_or_pos n with rfl | hpos
  · exact .zero .positive
  · have hvalue : 0 < value (ofNat n) := by
      rw [value_ofNat hn]
      exact_mod_cast hpos
    obtain ⟨m, e, hm, hu, hstored⟩ := exists_of_value_pos hvalue
    rw [hu]
    exact .finite hstored

/-- **From zero on finite doubles are in the order of their numbers.** -/
theorem le_iff_value_le (hx : FromZero x.toModel.unpack) (hy : FromZero y.toModel.unpack) :
    x ≤ y ↔ value x ≤ value y := by
  rw [le_iff_place_le hx.isNaN hy.isNaN, ← unpackedPlace_unpack hx.isNaN,
    ← unpackedPlace_unpack hy.isNaN]
  exact hx.place_le_iff hy

theorem beq_iff_value_eq (hx : FromZero x.toModel.unpack) (hy : FromZero y.toModel.unpack) :
    (x == y) = true ↔ value x = value y := by
  have hplaces : place x = place y ↔ place x ≤ place y ∧ place y ≤ place x := antisymm_iff.symm
  -- the two zeros stand at one place, so equality is equality of places
  rw [beq_iff_place_eq hx.isNaN hy.isNaN, hplaces, ← le_iff_place_le hx.isNaN hy.isNaN,
    ← le_iff_place_le hy.isNaN hx.isNaN, le_iff_value_le hx hy, le_iff_value_le hy hx,
    antisymm_iff]

/-- A double below the end of a word is cut off to its whole part. -/
theorem toNat_toUInt64 (hx : FromZero x.toModel.unpack) (hlt : value x < UInt64.size) :
    x.toUInt64.toNat = ⌊value x⌋₊ := by
  have hcut : (x.toModel.unpack.toInt 0 (UInt64.size - 1)).toNat = ⌊value x⌋₊ := by
    rw [hx.toInt_eq]
    exact Int.floor_toNat _
  have hsize : ⌊value x⌋₊ < UInt64.size := (Nat.floor_lt hx.value_nonneg).2 hlt
  change (UInt64.ofNatClamp (x.toModel.unpack.toInt 0 (UInt64.size - 1)).toNat).toNat = _
  rw [hcut, UInt64.ofNatClamp, dif_pos hsize, UInt64.toNat_ofNatLT]

/-! ## Negative numbers -/

theorem unpack_neg (hx : x.isNaN = false) : (-x).toModel.unpack = x.toModel.unpack.neg := by
  have hproper := isProper_unpack hx
  change unpack _ (pack _ x.toModel.unpack.neg) = _
  apply unpack_pack
  generalize x.toModel.unpack = u at hproper
  cases u <;> exact hproper

theorem isFinite_neg (x : Float) : (-x).isFinite = x.isFinite := by
  change (-x).toModel.unpack.isFinite = x.toModel.unpack.isFinite
  by_cases hx : x.isNaN = false
  · rw [unpack_neg hx]
    cases x.toModel.unpack <;> rfl
  · -- what is undefined stays so
    have hu : x.toModel.unpack = .notANumber := by
      rw [isNaN_eq_false_iff, not_not] at hx
      exact eq_notANumber hx
    change (unpack _ (pack _ x.toModel.unpack.neg)).isFinite = _
    rw [hu]
    rfl

theorem value_neg (hx : x.isFinite = true) : value (-x) = -value x := by
  rw [value, unpack_neg (isNaN_of_isFinite hx), value]
  cases x.toModel.unpack with
  | finite s m e hm => cases s <;> simp [UnpackedFloat.neg, unpackedValue, Sign.apply]
  | _ => exact neg_zero.symm

/-- A finite double is below zero where its number is. -/
theorem lt_zero_iff (hx : x.isFinite = true) : x < 0 ↔ value x < 0 := by
  have hdef := isNaN_of_isFinite hx
  have hproper := isProper_unpack hdef
  rw [lt_iff_place_lt hdef rfl, ← unpackedPlace_unpack hdef]
  change unpackedPlace x.toModel.unpack < 0 ↔ unpackedValue x.toModel.unpack < 0
  change x.toModel.unpack.isFinite = true at hx
  generalize x.toModel.unpack = u at hproper hx
  cases u with
  | notANumber => exact hproper.elim
  | infinity s => cases hx
  | zero s => exact iff_of_false (lt_irrefl 0) (lt_irrefl 0)
  | finite s m e hm =>
    have hsteps := IsStored.steps_pos hproper hm
    have hpos : (0 : ℚ) < m * 2 ^ e := by positivity
    simp only [unpackedPlace, unpackedValue]
    cases s with
    | positive => exact iff_of_false (not_lt.2 hsteps.le) (not_lt.2 hpos.le)
    | negative =>
      rw [Sign.apply, Sign.apply, Int.cast_neg, neg_mul, Int.cast_natCast]
      exact iff_of_true (neg_neg_of_pos hsteps) (neg_neg_of_pos hpos)

end

end QuantumWorkbench.Double
