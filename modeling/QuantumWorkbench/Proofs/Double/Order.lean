import Mathlib
import QuantumWorkbench.Scalar.Double

/-!
# The two orders of doubles

Doubles are compared by value, where the two zeros are equal, and ranked by their bits, where
negative zero comes first. Counted in steps from one double to the next, each that is defined has a
place on one line; both orders are read off the places, and they differ on the two zeros alone.
-/

namespace QuantumWorkbench.Double

open Float.Model Float.Model.UnpackedFloat

/-! ## Places of unpacked doubles -/

/-- How many steps a positive double of a mantissa and an exponent is above zero. -/
def steps (m : ℕ) (e : ℤ) : ℤ := (e + 1074) * 2 ^ 52 + m

/-- How many steps infinity is above zero. -/
def endSteps : ℤ := 2047 * 2 ^ 52

/-- Mantissa and exponent as they are stored: the mantissa has fifty-three bits, unless the exponent
is the least. -/
structure IsStored (m : ℕ) (e : ℤ) : Prop where
  least : -1074 ≤ e
  greatest : e ≤ 971
  mantissa_lt : m < 2 ^ 53
  normal : e = -1074 ∨ 2 ^ 52 ≤ m

theorem IsStored.steps_lt {m : ℕ} {e : ℤ} (h : IsStored m e) : steps m e < endSteps := by
  obtain ⟨-, hgreatest, hmantissa, -⟩ := h
  unfold steps endSteps
  omega

theorem IsStored.steps_pos {m : ℕ} {e : ℤ} (h : IsStored m e) (hm : 0 < m) : 0 < steps m e := by
  have hleast := h.least
  unfold steps
  omega

/-- Among stored doubles the larger exponent wins, then the larger mantissa. -/
theorem IsStored.compare {m m' : ℕ} {e e' : ℤ} (h : IsStored m e) (h' : IsStored m' e') :
    (compare e e').then (compare m m') = compare (steps m e) (steps m' e') := by
  obtain ⟨hleast, -, hmantissa, hnormal⟩ := h
  obtain ⟨hleast', -, hmantissa', hnormal'⟩ := h'
  unfold steps
  rcases lt_trichotomy e e' with he | rfl | he
  · rw [Int.compare_eq_lt.2 he, Int.compare_eq_lt.2 (by omega)]
    rfl
  · rw [Int.compare_eq_eq.2 rfl, Ordering.eq_then]
    rcases lt_trichotomy m m' with hm | rfl | hm
    · rw [Nat.compare_eq_lt.2 hm, Int.compare_eq_lt.2 (by omega)]
    · rw [Nat.compare_eq_eq.2 rfl, Int.compare_eq_eq.2 rfl]
    · rw [Nat.compare_eq_gt.2 hm, Int.compare_eq_gt.2 (by omega)]
  · rw [Int.compare_eq_gt.2 he, Int.compare_eq_gt.2 (by omega)]
    rfl

theorem compare_neg (a b : ℤ) : compare (-a) (-b) = (compare a b).swap := by
  rw [Int.compare_swap]
  rcases lt_trichotomy a b with h | rfl | h
  · rw [Int.compare_eq_gt.2 (by omega), Int.compare_eq_gt.2 h]
  · rw [Int.compare_eq_eq.2 rfl, Int.compare_eq_eq.2 rfl]
  · rw [Int.compare_eq_lt.2 (by omega), Int.compare_eq_lt.2 h]

/-- The place of an unpacked double on the line: zero stands at zero. -/
def unpackedPlace : UnpackedFloat → ℤ
  | .notANumber => 0
  | .zero _ => 0
  | .finite s m e _ => s.apply (steps m e)
  | .infinity s => s.apply endSteps

/-- The sign of an unpacked double, unless it is undefined. -/
def unpackedSign? : UnpackedFloat → Option Sign
  | .notANumber => none
  | .zero s => some s
  | .finite s _ _ _ => some s
  | .infinity s => some s

/-- A defined double with its mantissa and exponent as they are stored. -/
def IsProper : UnpackedFloat → Prop
  | .notANumber => False
  | .finite _ m e _ => IsStored m e
  | _ => True

theorem eq_zero_of_place {u : UnpackedFloat} {s : Sign} (hu : IsProper u)
    (hs : unpackedSign? u = some s) (hplace : unpackedPlace u = 0) : u = .zero s := by
  cases u with
  | notANumber => exact hu.elim
  | zero s' => exact congrArg UnpackedFloat.zero (Option.some.inj hs)
  | finite s' m e hm =>
    have hpos := IsStored.steps_pos hu hm
    cases s' <;> simp only [unpackedPlace, Sign.apply] at hplace <;> omega
  | infinity s' => cases s' <;> exact absurd hplace (by decide)

/-- **Comparison by value is comparison of places.** -/
theorem compare_eq_compare_place {u v : UnpackedFloat} (hu : IsProper u) (hv : IsProper v) :
    u.compare v = some (compare (unpackedPlace u) (unpackedPlace v)) := by
  have hend : 0 < endSteps := by decide
  have hlt : ∀ {a b : ℤ}, a < b → some Ordering.lt = some (compare a b) := fun h =>
    congrArg some (Int.compare_eq_lt.2 h).symm
  have hgt : ∀ {a b : ℤ}, b < a → some Ordering.gt = some (compare a b) := fun h =>
    congrArg some (Int.compare_eq_gt.2 h).symm
  -- zero is at zero, and a finite double strictly between zero and infinity on its side
  cases u with
  | notANumber => exact hu.elim
  | zero s =>
    cases v with
    | notANumber => exact hv.elim
    | zero s' => rfl
    | finite s' m' e' hm' =>
      have hpos := IsStored.steps_pos hv hm'
      cases s'
      · exact hgt (neg_neg_of_pos hpos)
      · exact hlt hpos
    | infinity s' => cases s' <;> rfl
  | finite s m e hm =>
    have hpos := IsStored.steps_pos hu hm
    have hbelow := IsStored.steps_lt hu
    cases v with
    | notANumber => exact hv.elim
    | zero s' =>
      cases s
      · exact hlt (neg_neg_of_pos hpos)
      · exact hgt hpos
    | finite s' m' e' hm' =>
      have hpos' := IsStored.steps_pos hv hm'
      cases s <;> cases s'
      · exact congrArg some (by rw [IsStored.compare hu hv, ← compare_neg]; rfl)
      · exact hlt ((neg_neg_of_pos hpos).trans hpos')
      · exact hgt ((neg_neg_of_pos hpos').trans hpos)
      · exact congrArg some (IsStored.compare hu hv)
    | infinity s' =>
      cases s <;> cases s'
      · exact hgt (neg_lt_neg hbelow)
      · exact hlt ((neg_neg_of_pos hpos).trans hend)
      · exact hgt ((neg_neg_of_pos hend).trans hpos)
      · exact hlt hbelow
  | infinity s =>
    cases v with
    | notANumber => exact hv.elim
    | zero s' => cases s <;> rfl
    | finite s' m' e' hm' =>
      have hpos' := IsStored.steps_pos hv hm'
      have hbelow' := IsStored.steps_lt hv
      cases s <;> cases s'
      · exact hlt (neg_lt_neg hbelow')
      · exact hlt ((neg_neg_of_pos hend).trans hpos')
      · exact hgt ((neg_neg_of_pos hpos').trans hend)
      · exact hgt hbelow'
    | infinity s' => cases s <;> cases s' <;> rfl

/-! ## Places of words -/

theorem toNat_unpackMantissa (w : UInt64) :
    (@unpackMantissa Format.binary64 w.toBitVec).toNat = w.toNat % 2 ^ 52 := by
  simp [unpackMantissa]

theorem toNat_unpackExponent (w : UInt64) :
    (@unpackExponent Format.binary64 w.toBitVec).toNat = w.toNat / 2 ^ 52 % 2 ^ 11 := by
  simp [unpackExponent, Nat.shiftRight_eq_div_pow]

theorem toNat_unpackSign (w : UInt64) :
    (@unpackSign Format.binary64 w.toBitVec).toNat = w.toNat / 2 ^ 63 := by
  have hlt := w.toNat_lt
  simp [unpackSign, Nat.shiftRight_eq_div_pow]
  omega

/-- The sign of a double, by its highest bit. -/
def sign (x : Float) : Sign := if x.toBits.toNat < 2 ^ 63 then .positive else .negative

/-- The distance of a double from zero in steps: its bits without the highest. -/
def magnitude (x : Float) : ℕ := x.toBits.toNat % 2 ^ 63

/-- The place of a double on the line: zero stands at zero. -/
def place (x : Float) : ℤ := (sign x).apply (magnitude x)

theorem ofBitVec_unpackSign (x : Float) :
    Sign.ofBitVec (@unpackSign Format.binary64 x.toBits.toBitVec) = sign x := by
  have hsign := toNat_unpackSign x.toBits
  have hlt := x.toBits.toNat_lt
  have hzero : @unpackSign Format.binary64 x.toBits.toBitVec = 0#1 ↔
      x.toBits.toNat < 2 ^ 63 := by
    rw [← BitVec.toNat_inj, hsign]
    exact Nat.div_eq_zero_iff_lt (by decide)
  simp only [Sign.ofBitVec, sign, hzero]

theorem toNat_one_append (v : BitVec 52) : (1#1 ++ v).toNat = 2 ^ 52 + v.toNat := by
  change 2 ^ 52 ||| v.toNat = _
  rw [Nat.or_comm, Nat.or_two_pow_eq_add_of_lt v.isLt, Nat.add_comm]

/-- The bits below the highest are the exponent followed by the mantissa. -/
theorem magnitude_eq (x : Float) :
    magnitude x = (@unpackExponent Format.binary64 x.toBits.toBitVec).toNat * 2 ^ 52 +
      (@unpackMantissa Format.binary64 x.toBits.toBitVec).toNat := by
  rw [magnitude, toNat_unpackExponent, toNat_unpackMantissa]
  omega

/-- **A double unpacks to its place**, unless it is undefined. -/
theorem unpack_spec {x : Float} (hx : x.isNaN = false) :
    IsProper x.toModel.unpack ∧ unpackedSign? x.toModel.unpack = some (sign x) ∧
      unpackedPlace x.toModel.unpack = place x := by
  have hplace := magnitude_eq x
  change (UnpackedFloat.unpack Format.binary64 x.toBits.toBitVec).isNaN = false at hx
  change IsProper (UnpackedFloat.unpack Format.binary64 x.toBits.toBitVec) ∧
    unpackedSign? (UnpackedFloat.unpack Format.binary64 x.toBits.toBitVec) = some (sign x) ∧
    unpackedPlace (UnpackedFloat.unpack Format.binary64 x.toBits.toBitVec) = place x
  rw [place, ← ofBitVec_unpackSign]
  revert hx
  fun_cases UnpackedFloat.unpack Format.binary64 x.toBits.toBitVec with
  | case1 mantissa exponent signBits s hones hzero =>
    have hones : exponent.toNat = 2047 := congrArg BitVec.toNat hones
    have hzero : mantissa.toNat = 0 := congrArg BitVec.toNat hzero
    -- infinity: the largest exponent without a mantissa
    refine fun _ => ⟨trivial, rfl, congrArg s.apply ?_⟩
    rw [hplace]
    change endSteps = (exponent.toNat * 2 ^ 52 + mantissa.toNat : ℕ)
    rw [hones, hzero]
    rfl
  | case2 mantissa exponent hones hdefined => exact fun h => absurd h (by decide)
  | case3 mantissa exponent signBits s hones hnone hzero =>
    have hnone : exponent.toNat = 0 := congrArg BitVec.toNat hnone
    have hzero : mantissa.toNat = 0 := congrArg BitVec.toNat hzero
    refine fun _ => ⟨trivial, rfl, ?_⟩
    rw [hplace]
    change 0 = s.apply (exponent.toNat * 2 ^ 52 + mantissa.toNat : ℕ)
    rw [hnone, hzero]
    cases s <;> rfl
  | case4 mantissa exponent e signBits s hones hnone hzero =>
    have hnone : exponent.toNat = 0 := congrArg BitVec.toNat hnone
    have hlt : mantissa.toNat < 2 ^ 52 := mantissa.isLt
    -- a double below the normal range has the least exponent
    have he : e + 1 = -1074 := by
      change (exponent.toNat : ℤ) - 1075 + 1 = -1074
      omega
    refine fun _ => ⟨?_, rfl, congrArg s.apply ?_⟩
    · rw [he]
      exact ⟨le_rfl, by decide, hlt.trans (by decide), .inl rfl⟩
    · rw [he, hplace]
      change steps mantissa.toNat (-1074) = (exponent.toNat * 2 ^ 52 + mantissa.toNat : ℕ)
      rw [steps, hnone]
      omega
  | case5 mantissa exponent e signBits s hones hnone =>
    have hones : exponent.toNat ≠ 2047 := fun h => hones (BitVec.eq_of_toNat_eq h)
    have hnone : exponent.toNat ≠ 0 := fun h => hnone (BitVec.eq_of_toNat_eq h)
    have hlt : mantissa.toNat < 2 ^ 52 := mantissa.isLt
    have hexponent : exponent.toNat < 2 ^ 11 := exponent.isLt
    have he : e = (exponent.toNat : ℤ) - 1075 := rfl
    -- the mantissa of a normal double has one bit more than is stored
    have happend := toNat_one_append mantissa
    refine fun _ => ⟨⟨?_, ?_, ?_, ?_⟩, rfl, congrArg s.apply ?_⟩
    · omega
    · omega
    · omega
    · omega
    · rw [hplace]
      change steps (1#1 ++ mantissa).toNat e = (exponent.toNat * 2 ^ 52 + mantissa.toNat : ℕ)
      rw [steps]
      omega

theorem isProper_unpack {x : Float} (hx : x.isNaN = false) : IsProper x.toModel.unpack :=
  (unpack_spec hx).1

theorem unpackedPlace_unpack {x : Float} (hx : x.isNaN = false) :
    unpackedPlace x.toModel.unpack = place x := (unpack_spec hx).2.2

/-! ## The orders on places -/

section

variable {x y : Float}

theorem compare_eq (hx : x.isNaN = false) (hy : y.isNaN = false) :
    x.toModel.unpack.compare y.toModel.unpack = some (compare (place x) (place y)) := by
  obtain ⟨hproper, -, hplace⟩ := unpack_spec hx
  obtain ⟨hproper', -, hplace'⟩ := unpack_spec hy
  rw [compare_eq_compare_place hproper hproper', hplace, hplace']

theorem le_iff_place_le (hx : x.isNaN = false) (hy : y.isNaN = false) :
    x ≤ y ↔ place x ≤ place y := by
  have hle : x ≤ y ↔ x.toModel.unpack.le y.toModel.unpack = true := decide_eq_true_iff
  rw [hle, UnpackedFloat.le, compare_eq hx hy]
  exact Int.isLE_compare

theorem lt_iff_place_lt (hx : x.isNaN = false) (hy : y.isNaN = false) :
    x < y ↔ place x < place y := by
  have hlt : x < y ↔ x.toModel.unpack.lt y.toModel.unpack = true := decide_eq_true_iff
  rw [hlt, UnpackedFloat.lt, compare_eq hx hy, beq_iff_eq, Option.some_inj]
  exact Int.compare_eq_lt

theorem beq_iff_place_eq (hx : x.isNaN = false) (hy : y.isNaN = false) :
    (x == y) = true ↔ place x = place y := by
  have hbeq : (x == y) = (x.toModel.unpack.compare y.toModel.unpack == some .eq) := rfl
  rw [hbeq, compare_eq hx hy, beq_iff_eq, Option.some_inj, Int.compare_eq_eq]

theorem magnitude_lt (x : Float) : magnitude x < 2 ^ 63 := Nat.mod_lt _ (by decide)

/-- Positive doubles are ranked upwards from the middle. -/
theorem toNat_rank_positive (h : sign x = .positive) : (rank x).toNat = 2 ^ 63 + magnitude x := by
  have hbit : x.toBits.toNat < 2 ^ 63 := by
    by_contra hbit
    rw [sign, if_neg hbit] at h
    cases h
  have hword : x.toBits < signBit := UInt64.lt_iff_toNat_lt.2 hbit
  simp only [rank, hword, if_true]
  rw [UInt64.toNat_or, show signBit.toNat = 2 ^ 63 from rfl, Nat.or_two_pow_eq_add_of_lt hbit,
    magnitude, Nat.mod_eq_of_lt hbit, Nat.add_comm]

/-- Negative doubles are ranked downwards from the middle. -/
theorem toNat_rank_negative (h : sign x = .negative) :
    (rank x).toNat = 2 ^ 63 - 1 - magnitude x := by
  have hlt := x.toBits.toNat_lt
  have hbit : ¬ x.toBits.toNat < 2 ^ 63 := by
    intro hbit
    rw [sign, if_pos hbit] at h
    cases h
  have hword : ¬ x.toBits < signBit := fun hword => hbit (UInt64.lt_iff_toNat_lt.1 hword)
  simp only [rank, hword, if_false]
  rw [UInt64.toNat_not, magnitude, show UInt64.size = 2 ^ 64 from rfl]
  omega

/-- **A lower rank is never a greater value.** -/
theorem le_of_rank_le (hx : x.isNaN = false) (hy : y.isNaN = false) (h : rank x ≤ rank y) :
    x ≤ y := by
  have hrank := UInt64.le_iff_toNat_le.1 h
  have hlt := magnitude_lt x
  have hlt' := magnitude_lt y
  rw [le_iff_place_le hx hy, place, place]
  cases hs : sign x <;> cases hs' : sign y <;>
    simp only [toNat_rank_positive, toNat_rank_negative, hs, hs', Sign.apply] at hrank ⊢ <;>
    omega

/-- Negative zero, which is equal to zero and ranked below it. -/
def IsNegativeZero (x : Float) : Prop := x.toModel.unpack = .zero .negative

/-- **A strictly lower rank is a strictly smaller value**, but for negative zero and zero. -/
theorem lt_of_rank_lt (hx : x.isNaN = false) (hy : y.isNaN = false) (h : rank x < rank y)
    (hzero : IsNegativeZero x → sign y = .negative) : x < y := by
  have hrank := UInt64.lt_iff_toNat_lt.1 h
  have hlt := magnitude_lt x
  have hlt' := magnitude_lt y
  obtain ⟨hproper, hsign, hplace⟩ := unpack_spec hx
  rw [lt_iff_place_lt hx hy]
  cases hs : sign x <;> cases hs' : sign y <;>
    simp only [toNat_rank_positive, toNat_rank_negative, place, hs, hs', Sign.apply]
      at hrank hplace ⊢
  case negative.positive =>
    -- equal places are those of the two zeros
    by_contra hle
    have hzero := hzero (eq_zero_of_place hproper (hs ▸ hsign) (by omega))
    rw [hs'] at hzero
    cases hzero
  all_goals omega

end

end QuantumWorkbench.Double
