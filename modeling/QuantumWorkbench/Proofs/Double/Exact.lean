import Mathlib
import QuantumWorkbench.Proofs.Double.Rounding

/-!
# Roundings that lose nothing

A mantissa that only has zeros behind the bits that are stored is rounded to itself. So one times a
double is that double, and a natural number of at most fifty-three bits is a double.
-/

namespace QuantumWorkbench.Double

open Float.Model Float.Model.UnpackedFloat

/-! ## Mantissas -/

section

variable {m : ℕ} {e : ℤ}

theorem roundedShift_mul_two_pow (m k : ℕ) : roundedShift (m * 2 ^ k) k = m := by
  obtain ⟨hle, hge, -⟩ := roundedShift_spec (m * 2 ^ k) k
  have hunit := Nat.two_pow_pos k
  have hupper : (2 * roundedShift (m * 2 ^ k) k) * 2 ^ k ≤ (2 * m + 1) * 2 ^ k := by
    rw [add_mul, one_mul, mul_assoc 2 m]
    exact hle
  have hlower : (2 * m) * 2 ^ k ≤ (2 * roundedShift (m * 2 ^ k) k + 1) * 2 ^ k := by
    rw [mul_assoc 2 m]
    exact hge
  have hupper := Nat.le_of_mul_le_mul_right hupper hunit
  have hlower := Nat.le_of_mul_le_mul_right hlower hunit
  omega

/-- A stored mantissa is rounded at its own exponent. -/
theorem IsStored.roundingExponent_eq (h : IsStored m e) (hm : 0 < m) : roundingExponent m e = e := by
  obtain ⟨hleast, -, hlt, hnormal⟩ := h
  have hlog : m.log2 < 53 := (Nat.log2_lt hm.ne').2 hlt
  unfold roundingExponent
  rcases hnormal with rfl | hlong
  · omega
  · have hlog' : 52 ≤ m.log2 := (Nat.le_log2 hm.ne').2 hlong
    omega

/-- Zeros behind the mantissa change neither the number nor the exponent it is rounded at. -/
theorem roundingExponent_mul_two_pow (hm : 0 < m) (k : ℕ) (e : ℤ) :
    roundingExponent (m * 2 ^ k) (e - k) = roundingExponent m e := by
  unfold roundingExponent
  rw [← Nat.shiftLeft_eq, log2_shiftLeft hm.ne']
  push_cast
  ring_nf

/-- **A stored mantissa is rounded to itself**, however many zeros are written behind it. -/
theorem IsStored.roundWithAccuracy_eq (h : IsStored m e) (hm : 0 < m) (s : Sign) (k : ℕ) :
    roundWithAccuracy Format.binary64 s (m * 2 ^ k) (e - k) .exact = .finite s m e hm := by
  have hexponent : roundingExponent (m * 2 ^ k) (e - k) = e - k + k := by
    rw [roundingExponent_mul_two_pow hm, h.roundingExponent_eq hm, sub_add_cancel]
  have hagain : (roundingExponent m e - e).toNat = 0 := by
    rw [h.roundingExponent_eq hm, sub_self]
    rfl
  rw [Double.roundWithAccuracy_eq s hexponent]
  simp only [roundedShift_mul_two_pow, sub_add_cancel, hagain, pow_zero, Nat.div_one,
    dif_neg hm.ne', Nat.cast_zero, add_zero]

end

/-! ## One as a factor -/

/-- A double is determined by what it unpacks to. -/
theorem eq_of_unpack_eq {x y : Float} (h : x.toModel.unpack = y.toModel.unpack) : x = y := by
  obtain ⟨⟨⟨bits⟩, hvalid⟩⟩ := x
  obtain ⟨⟨⟨bits'⟩, hvalid'⟩⟩ := y
  obtain rfl := (unpack_inj_of_valid hvalid hvalid').1 h
  rfl

/-- What a double that is defined unpacks to is packed without loss. -/
theorem unpack_pack {u : UnpackedFloat} (hu : IsProper u) :
    unpack Format.binary64 (pack Format.binary64 u) = u := by
  cases u with
  | notANumber => exact hu.elim
  | zero s => cases s <;> rfl
  | infinity s => cases s <;> rfl
  | finite s m e hm => exact unpack_pack_finite s hm hu

theorem isNaN_of_isFinite {x : Float} (hx : x.isFinite = true) : x.isNaN = false := by
  change x.toModel.unpack.isFinite = true at hx
  change x.toModel.unpack.isNaN = false
  cases hu : x.toModel.unpack with
  | notANumber =>
    rw [hu] at hx
    cases hx
  | _ => rfl

/-- A product of doubles is the double that unpacks to their unpacked product. -/
theorem mul_eq_of_unpack {x y z : Float} (hz : z.isNaN = false)
    (h : UnpackedFloat.mul Format.binary64 x.toModel.unpack y.toModel.unpack = z.toModel.unpack) :
    x * y = z := by
  apply eq_of_unpack_eq
  change unpack _ (pack _ (UnpackedFloat.mul _ x.toModel.unpack y.toModel.unpack)) = _
  rw [h, unpack_pack (isProper_unpack hz)]

/-- **One times a double** is that double, unless it is undefined. -/
theorem one_mul_eq {x : Float} (hx : x.isNaN = false) : 1 * x = x := by
  have hproper := isProper_unpack hx
  have hunpack : (1 : Float).toModel.unpack = .finite .positive (2 ^ 52) (-52) (by decide) := rfl
  apply mul_eq_of_unpack hx
  rw [hunpack]
  generalize x.toModel.unpack = u at hproper
  cases u with
  | notANumber => exact hproper.elim
  | zero s => cases s <;> rfl
  | infinity s => cases s <;> rfl
  | finite s m e hm =>
    -- the mantissa of one shifts the other, and rounding shifts it back
    have hround := hproper.roundWithAccuracy_eq hm s 52
    have hexponent : (-52 : ℤ) + e = e - (52 : ℕ) := by
      push_cast
      ring
    have hsign : Sign.positive * s = s := by cases s <;> rfl
    refine Eq.trans ?_ hround
    show roundWithAccuracy _ (Sign.positive * s) (2 ^ 52 * m) (-52 + e) .exact = _
    rw [hsign, Nat.mul_comm, hexponent]

/-! ## Natural numbers -/

/-- A number of at most fifty-three bits has a mantissa that is stored. -/
theorem isStored_of_lt {n : ℕ} (hpos : 0 < n) (hn : n < 2 ^ 53) :
    IsStored (n * 2 ^ (52 - n.log2)) (-(52 - n.log2 : ℕ)) := by
  have hlog : n.log2 < 53 := (Nat.log2_lt hpos.ne').2 hn
  have hlong : 2 ^ 52 ≤ n * 2 ^ (52 - n.log2) := by
    calc 2 ^ 52 = 2 ^ n.log2 * 2 ^ (52 - n.log2) := by rw [← pow_add]; congr 1; omega
      _ ≤ n * 2 ^ (52 - n.log2) := Nat.mul_le_mul_right _ (Nat.log2_self_le hpos.ne')
  have hshort : n * 2 ^ (52 - n.log2) < 2 ^ 53 := by
    calc n * 2 ^ (52 - n.log2) < 2 ^ (n.log2 + 1) * 2 ^ (52 - n.log2) :=
          Nat.mul_lt_mul_of_pos_right (Nat.lt_log2_self) (Nat.two_pow_pos _)
      _ = 2 ^ 53 := by rw [← pow_add]; congr 1; omega
  exact ⟨by omega, by omega, hshort, .inr hlong⟩

/-- A number that is stored is rounded to itself, its leading bit moved to the front. -/
theorem unpackedOfNat_eq {n : ℕ} (hpos : 0 < n) (hn : n < 2 ^ 53) :
    UnpackedFloat.ofNat Format.binary64 n = .finite .positive (n * 2 ^ (52 - n.log2))
      (-(52 - n.log2 : ℕ)) (Nat.mul_pos hpos (Nat.two_pow_pos _)) := by
  have hlog : n.log2 < 53 := (Nat.log2_lt hpos.ne').2 hn
  have hround := (isStored_of_lt hpos hn).roundWithAccuracy_eq
    (Nat.mul_pos hpos (Nat.two_pow_pos _)) .positive 0
  have hexponent : (0 - roundingExponent n 0).toNat = 52 - n.log2 := by
    unfold roundingExponent
    omega
  have hofNat : UnpackedFloat.ofNat Format.binary64 n = roundWithAccuracy Format.binary64
      .positive (n <<< (0 - roundingExponent n 0).toNat)
      (0 - (0 - roundingExponent n 0).toNat) .exact := by
    have hcompare : compare (n : ℤ) 0 = .gt := Int.compare_eq_gt.2 (by omega)
    rw [UnpackedFloat.ofNat, UnpackedFloat.ofInt, UnpackedFloat.normalize, hcompare]
    rfl
  rw [pow_zero, Nat.mul_one, Nat.cast_zero, sub_zero] at hround
  rw [hofNat, hexponent, Nat.shiftLeft_eq, zero_sub, hround]

/-- **A number of at most fifty-three bits is a double.** -/
theorem value_ofNat {n : ℕ} (hn : n < 2 ^ 53) : value (ofNat n) = n := by
  have hword : n.toUInt64.toNat = n := by
    rw [Nat.toUInt64, UInt64.toNat_ofNat']
    omega
  have hunpack : (ofNat n).toModel.unpack = unpack Format.binary64 (pack Format.binary64
      (UnpackedFloat.ofNat Format.binary64 n)) := by
    have hfloat : ofNat n = n.toUInt64.toFloat := by simp only [ofNat, hword, if_true]
    rw [hfloat]
    show unpack _ (pack _ (UnpackedFloat.ofNat _ n.toUInt64.toNat)) = _
    rw [hword]
  rcases Nat.eq_zero_or_pos n with rfl | hpos
  · rfl
  · rw [unpackedOfNat_eq hpos hn, unpack_pack_finite _ _ (isStored_of_lt hpos hn)] at hunpack
    rw [value_eq hunpack, zpow_neg, zpow_natCast]
    push_cast
    field_simp

end QuantumWorkbench.Double
