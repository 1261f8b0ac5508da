import Mathlib
import QuantumWorkbench.Proofs.Double.Exact

/-!
# Rounding keeps the order

No double lies strictly between a number and the double that it is rounded to. So a sum of doubles
that are not negative is at least each of them. A double above the least normal one also stays above
each of its fractions: what a fraction leaves off is more than half a step between doubles, however
close to one the fraction is.
-/

namespace QuantumWorkbench.Double

open Float.Model Float.Model.UnpackedFloat

/-! ## Mantissas -/

section

variable {m k M : ℕ} {e E : ℤ}

/-- A multiple of the step that a number is rounded to, beside the number. -/
theorem mul_step_le_iff {t : ℕ} : (t : ℚ) * 2 ^ (e + k) ≤ m * 2 ^ e ↔ t * 2 ^ k ≤ m := by
  rw [add_comm, zpow_add₀ two_ne_zero, zpow_natCast, ← mul_assoc, mul_le_mul_iff_left₀ (by positivity)]
  exact_mod_cast Iff.rfl

/-- From the step on a stored double is a multiple of it. -/
theorem exists_mul_step (M : ℕ) {s : ℤ} (h : s ≤ E) :
    ∃ t : ℕ, (M : ℚ) * 2 ^ E = t * 2 ^ s := by
  obtain ⟨j, rfl⟩ := Int.le.dest h
  refine ⟨M * 2 ^ j, ?_⟩
  rw [add_comm, zpow_add₀ two_ne_zero, zpow_natCast]
  push_cast
  ring

/-- **A double below a number** is below the rounded number. -/
theorem le_roundedShift (hm : 0 < m) (hk : roundingExponent m e = e + k) (h : IsStored M E)
    (hle : (M : ℚ) * 2 ^ E ≤ m * 2 ^ e) : (M : ℚ) * 2 ^ E ≤ roundedShift m k * 2 ^ (e + k) := by
  obtain ⟨hleast, -, hlt, -⟩ := h
  rcases le_or_gt (e + k) E with hstep | hstep
  · obtain ⟨t, ht⟩ := exists_mul_step M hstep
    rw [ht, mul_step_le_iff] at hle
    have hnear := (roundedShift_spec m k).2.1
    have hrounded : 2 * t * 2 ^ k ≤ (2 * roundedShift m k + 1) * 2 ^ k := by
      rw [mul_assoc]
      exact (Nat.mul_le_mul_left 2 hle).trans hnear
    have hrounded := Nat.le_of_mul_le_mul_right hrounded (Nat.two_pow_pos k)
    rw [ht]
    gcongr
    omega
  · -- below the step there are doubles only where the rounded mantissa has its leading bit
    have hlong : 2 ^ 52 ≤ roundedShift m k := by
      rcases (roundedShift_bounds hm hk).2 with hend | hlong
      · omega
      · exact hlong
    calc (M : ℚ) * 2 ^ E ≤ 2 ^ 53 * 2 ^ E := by gcongr; exact_mod_cast hlt.le
      _ = 2 ^ 52 * 2 ^ (E + 1) := by rw [zpow_add_one₀ two_ne_zero]; ring
      _ ≤ roundedShift m k * 2 ^ (e + k) := mul_le_mul (by exact_mod_cast hlong)
        (zpow_le_zpow_right₀ one_le_two (by omega)) (by positivity) (by positivity)

/-- A mantissa of more than 53 bits that is scaled down is rounded to less: more than half a step is
scaled off. -/
theorem roundedShift_lt_of_long {t : ℕ} (hlong : 2 ^ 52 < t) (hle : (m : ℚ) ≤ t * 2 ^ k * kept) :
    roundedShift m k < t := by
  by_contra hge
  have hgrown : (t : ℚ) ≤ roundedShift m k := by exact_mod_cast not_lt.1 hge
  have hrounded : (2 * roundedShift m k * 2 ^ k : ℚ) ≤ 2 * m + 2 ^ k := by
    exact_mod_cast (roundedShift_spec m k).1
  have hstay : (2 * t * 2 ^ k : ℚ) ≤ 2 * (t * 2 ^ k * kept) + 2 ^ k := by
    calc (2 * t * 2 ^ k : ℚ) ≤ 2 * roundedShift m k * 2 ^ k := by gcongr
      _ ≤ 2 * m + 2 ^ k := hrounded
      _ ≤ 2 * (t * 2 ^ k * kept) + 2 ^ k := by gcongr
  have hoff : (2 * t * 2 ^ (-53 : ℤ) : ℚ) * 2 ^ k ≤ 1 * 2 ^ k := by
    rw [kept] at hstay
    linarith
  have hhalf : (1 : ℚ) < 2 * t * 2 ^ (-53 : ℤ) := by
    calc (1 : ℚ) = 2 * 2 ^ 52 * 2 ^ (-53 : ℤ) := by norm_num
      _ < 2 * t * 2 ^ (-53 : ℤ) := by gcongr; exact_mod_cast hlong
  exact absurd (le_of_mul_le_mul_right hoff (by positivity)) (not_le.2 hhalf)

/-- A number that a normal double is scaled down to has no longer mantissa than the double. -/
theorem two_zpow_lt_of_scaled (hm : 0 < m) (hk : roundingExponent m e = e + k)
    (hnormal : leastNormal < M * 2 ^ E) (hle : (m : ℚ) * 2 ^ e ≤ M * 2 ^ E * kept) :
    (2 : ℚ) ^ (52 + (e + k)) < M * 2 ^ E := by
  have hpos : (0 : ℚ) < M * 2 ^ E := leastNormal_pos.trans hnormal
  rw [← hk]
  unfold roundingExponent
  rcases max_choice ((m.log2 : ℤ) + 1 + e - 53) (-1074) with hmax | hmax <;> rw [hmax]
  · rw [show (52 : ℤ) + (m.log2 + 1 + e - 53) = m.log2 + e by ring]
    calc (2 : ℚ) ^ (m.log2 + e) ≤ m * 2 ^ e := two_zpow_log2_le hm e
      _ ≤ M * 2 ^ E * kept := hle
      _ < M * 2 ^ E := mul_lt_of_lt_one_right hpos (by norm_num [kept])
  · exact hnormal

/-- **A normal double scaled down** is rounded to less, unless it is the least. -/
theorem roundedShift_lt (hm : 0 < m) (hk : roundingExponent m e = e + k) (h : IsStored M E)
    (hnormal : leastNormal < M * 2 ^ E) (hle : (m : ℚ) * 2 ^ e ≤ M * 2 ^ E * kept) :
    (roundedShift m k : ℚ) * 2 ^ (e + k) < M * 2 ^ E := by
  have hleading := two_zpow_lt_of_scaled hm hk hnormal hle
  have hstep : e + k ≤ E := by
    have hupper : (M : ℚ) * 2 ^ E < 2 ^ (53 + E) := by
      rw [zpow_add₀ two_ne_zero]
      gcongr
      exact_mod_cast h.mantissa_lt
    have hexponent := (zpow_lt_zpow_iff_right₀ one_lt_two).1 (hleading.trans hupper)
    omega
  -- rounding steps no coarser than the bound: the bound is a whole number of them
  obtain ⟨t, ht⟩ := exists_mul_step M hstep
  rw [ht, zpow_add₀ two_ne_zero, mul_lt_mul_iff_left₀ (by positivity)] at hleading
  have hscaled : (m : ℚ) ≤ t * 2 ^ k * kept := by
    have hunit : (t : ℚ) * 2 ^ (e + k) * kept = t * 2 ^ k * kept * 2 ^ e := by
      rw [zpow_add₀ two_ne_zero, zpow_natCast]
      ring
    rw [ht, hunit, mul_le_mul_iff_left₀ (by positivity)] at hle
    exact hle
  rw [ht, mul_lt_mul_iff_left₀ (by positivity), Nat.cast_lt]
  exact roundedShift_lt_of_long (by exact_mod_cast hleading) hscaled

end

/-! ## The stored result -/

/-- An exponent that is too large to be stored is packed to infinity. -/
theorem unpack_pack_large (s : Sign) {m : ℕ} {e : ℤ} (hm : 0 < m) (he : 971 < e) :
    unpack Format.binary64 (pack Format.binary64 (.finite s m e hm)) = .infinity s := by
  have hlarge : 2 ^ 11 ≤ (e + 1023 + 52).toNat + 1 := by omega
  have hpack : pack Format.binary64 (.finite s m e hm) = packedInfinity Format.binary64 s :=
    if_pos hlarge
  rw [hpack]
  cases s <;> rfl

/-- No stored double is as large as a number that is too large to be stored. -/
theorem IsStored.lt_of_large {m M : ℕ} {e E : ℤ} (h : IsStored M E) (hm : 2 ^ 52 ≤ m)
    (he : 971 < e) : (M : ℚ) * 2 ^ E < m * 2 ^ e := by
  calc (M : ℚ) * 2 ^ E ≤ M * 2 ^ (971 : ℤ) :=
        mul_le_mul_of_nonneg_left (zpow_le_zpow_right₀ one_le_two h.greatest) (by positivity)
    _ < 2 ^ 53 * 2 ^ (971 : ℤ) :=
        mul_lt_mul_of_pos_right (by exact_mod_cast h.mantissa_lt) (by positivity)
    _ = 2 ^ 52 * 2 ^ (972 : ℤ) := by rw [show (972 : ℤ) = 971 + 1 by rfl, zpow_add_one₀ two_ne_zero]; ring
    _ ≤ m * 2 ^ e := mul_le_mul (by exact_mod_cast hm) (zpow_le_zpow_right₀ one_le_two he)
        (by positivity) (by positivity)

/-- The place that a number is rounded to, beside those of stored doubles. -/
structure KeepsOrder (v : ℚ) (u : UnpackedFloat) : Prop where
  /-- A double up to the number is up to what it is rounded to. -/
  le : ∀ {M : ℕ} {E : ℤ}, 0 < M → IsStored M E → (M : ℚ) * 2 ^ E ≤ v →
    steps M E ≤ unpackedPlace u
  /-- A normal double that the number is scaled down from, unless it is the least, is above. -/
  lt : ∀ {M : ℕ} {E : ℤ}, IsStored M E → leastNormal < M * 2 ^ E → v ≤ M * 2 ^ E * kept →
    unpackedPlace u < steps M E

section

variable {m : ℕ} {e : ℤ}

/-- **Rounding keeps the order.** -/
theorem keepsOrder_roundWithAccuracy (hm : 0 < m) (he : e ≤ roundingExponent m e) :
    KeepsOrder (m * 2 ^ e) (unpack Format.binary64 (pack Format.binary64
      (roundWithAccuracy Format.binary64 .positive m e .exact))) := by
  obtain ⟨k, hk⟩ := Int.le.dest he
  rcases roundWithAccuracy_spec .positive hm hk.symm with
    ⟨hrounded, hresult⟩ | ⟨hrounded, m', e', hm', hresult, hleast, hlt, hnormal, hvalue⟩
  · rw [hresult]
    refine ⟨fun hM h hle => ?_, fun hM hlarge _ => ?_⟩
    · have hbelow := le_roundedShift hm hk.symm h hle
      rw [hrounded, Nat.cast_zero, zero_mul] at hbelow
      exact absurd hbelow (not_le.2 (by positivity))
    · refine IsStored.steps_pos hM (Nat.pos_of_ne_zero fun hzero => ?_)
      rw [hzero, Nat.cast_zero, zero_mul] at hlarge
      exact absurd hlarge (not_lt.2 leastNormal_pos.le)
  · rw [hresult]
    rcases le_or_gt e' 971 with hgreatest | hgreatest
    · have hstored : IsStored m' e' := ⟨hleast, hgreatest, hlt, hnormal⟩
      rw [unpack_pack_finite _ hm' hstored]
      refine ⟨fun hM h hle => ?_, fun h hlarge hscaled => ?_⟩
      · apply (h.steps_le_iff hstored).2
        rw [hvalue]
        exact le_roundedShift hm hk.symm h hle
      · apply lt_of_not_ge
        intro hge
        have hge := (h.steps_le_iff hstored).1 hge
        rw [hvalue] at hge
        exact absurd hge (not_le.2 (roundedShift_lt hm hk.symm h hlarge hscaled))
    · rw [unpack_pack_large _ hm' hgreatest]
      refine ⟨fun hM h hle => h.steps_lt.le, fun h hlarge hscaled => ?_⟩
      -- no stored double is above a number that is too large to be stored
      have hbelow := roundedShift_lt hm hk.symm h hlarge hscaled
      rw [← hvalue] at hbelow
      exact absurd hbelow (not_lt.2 (h.lt_of_large (hnormal.resolve_left (by omega)) hgreatest).le)

theorem keepsOrder_round (hm : 0 < m) (e : ℤ) :
    KeepsOrder (m * 2 ^ e) (unpack Format.binary64 (pack Format.binary64
      (round Format.binary64 .positive m e))) := by
  obtain ⟨n, d, hn, hd, hvalue, hround⟩ := exists_round_eq .positive hm e
  rw [hround, ← hvalue]
  exact keepsOrder_roundWithAccuracy hn hd

end

/-! ## Sums -/

theorem unpackedPlace_nonneg {u : UnpackedFloat} (hu : IsProper u)
    (hs : unpackedSign? u = some .positive) : 0 ≤ unpackedPlace u := by
  cases u with
  | finite s m e hm =>
    obtain rfl := Option.some.inj hs
    exact (IsStored.steps_pos hu hm).le
  | infinity s =>
    obtain rfl := Option.some.inj hs
    exact (by decide : (0 : ℤ) ≤ endSteps)
  | _ => exact le_rfl

/-- From zero on a finite double is positive. -/
theorem sign_of_place_nonneg {s : Sign} {m : ℕ} {e : ℤ} {hm} (hu : IsStored m e)
    (h : 0 ≤ unpackedPlace (.finite s m e hm)) : s = .positive := by
  cases s with
  | positive => rfl
  | negative => exact absurd h (not_le.2 (neg_neg_of_pos (hu.steps_pos hm)))

theorem eq_positive_of_infinity {s : Sign} (h : 0 ≤ unpackedPlace (.infinity s)) :
    s = .positive := by
  cases s with
  | positive => rfl
  | negative => exact absurd h (by decide)

/-- The sum of two positive doubles rounds their exact sum. -/
theorem exists_add_eq {m m' : ℕ} (e e' : ℤ) (hm : 0 < m) (hm' : 0 < m') :
    ∃ (n : ℕ) (d : ℤ), 0 < n ∧ (n : ℚ) * 2 ^ d = m * 2 ^ e + m' * 2 ^ e' ∧
      UnpackedFloat.add Format.binary64 (.finite .positive m e hm) (.finite .positive m' e' hm') =
        round Format.binary64 .positive n d := by
  obtain ⟨k, hk⟩ := Int.le.dest (min_le_left e e')
  obtain ⟨k', hk'⟩ := Int.le.dest (min_le_right e e')
  have hpos : 0 < m * 2 ^ k + m' * 2 ^ k' := Nat.add_pos_left (Nat.mul_pos hm (Nat.two_pow_pos k)) _
  have hshift : (e - min e e').toNat = k := by omega
  have hshift' : (e' - min e e').toNat = k' := by omega
  refine ⟨_, min e e', hpos, ?_, ?_⟩
  · nth_rewrite 2 [← hk]
    nth_rewrite 3 [← hk']
    rw [zpow_add₀ two_ne_zero, zpow_add₀ two_ne_zero, zpow_natCast, zpow_natCast]
    push_cast
    ring
  · have hsum : ((m * 2 ^ k : ℕ) : ℤ) + (m' * 2 ^ k' : ℕ) = (m * 2 ^ k + m' * 2 ^ k' : ℕ) := rfl
    simp only [UnpackedFloat.add, decreaseExponent, hshift, hshift', Nat.shiftLeft_eq, Sign.apply,
      hsum, UnpackedFloat.normalize, Int.compare_eq_gt.2 (Int.natCast_pos.2 hpos),
      Int.toNat_natCast]

/-- A summand at zero changes no place. -/
theorem place_add_of_place_eq_zero {u v : UnpackedFloat} (hu : IsProper u) (hv : IsProper v)
    (hzero : unpackedPlace v = 0) :
    unpackedPlace (unpack Format.binary64 (pack Format.binary64
      (UnpackedFloat.add Format.binary64 u v))) = unpackedPlace u := by
  obtain ⟨s', rfl⟩ : ∃ s', v = .zero s' := by
    cases v with
    | notANumber => exact hv.elim
    | _ => exact ⟨_, eq_zero_of_place hv rfl hzero⟩
  cases u with
  | notANumber => exact hu.elim
  | zero s => cases s <;> cases s' <;> rfl
  | finite s m e hm =>
    have hadd : UnpackedFloat.add Format.binary64 (.finite s m e hm) (.zero s') =
        .finite s m e hm := rfl
    rw [hadd, unpack_pack hu]
  | infinity s =>
    have hadd : UnpackedFloat.add Format.binary64 (.infinity s) (.zero s') = .infinity s := rfl
    rw [hadd, unpack_pack hu]

/-- **A sum is at least the first summand**, where neither is negative. -/
theorem place_le_place_add {u v : UnpackedFloat} (hu : IsProper u) (hv : IsProper v)
    (hu' : 0 ≤ unpackedPlace u) (hv' : 0 ≤ unpackedPlace v) :
    unpackedPlace u ≤ unpackedPlace (unpack Format.binary64 (pack Format.binary64
      (UnpackedFloat.add Format.binary64 u v))) := by
  cases v with
  | notANumber => exact hv.elim
  | zero s' => exact (place_add_of_place_eq_zero hu hv rfl).ge
  | infinity s' =>
    -- the sum is infinite, and nothing is above
    obtain rfl := eq_positive_of_infinity hv'
    have hadd : UnpackedFloat.add Format.binary64 u (.infinity .positive) =
        .infinity .positive := by
      cases u with
      | notANumber => exact hu.elim
      | infinity s =>
        obtain rfl := eq_positive_of_infinity hu'
        rfl
      | _ => rfl
    rw [hadd, unpack_pack hv]
    cases u with
    | notANumber => exact hu.elim
    | zero s => exact hv'
    | finite s m e hm =>
      obtain rfl := sign_of_place_nonneg hu hu'
      exact (IsStored.steps_lt hu).le
    | infinity s =>
      obtain rfl := eq_positive_of_infinity hu'
      exact le_rfl
  | finite s' m' e' hm' =>
    cases u with
    | notANumber => exact hu.elim
    | zero s =>
      have hadd : UnpackedFloat.add Format.binary64 (.zero s) (.finite s' m' e' hm') =
          .finite s' m' e' hm' := rfl
      rwa [hadd, unpack_pack hv]
    | finite s m e hm =>
      obtain rfl := sign_of_place_nonneg hu hu'
      obtain rfl := sign_of_place_nonneg hv hv'
      obtain ⟨n, d, hn, hvalue, hadd⟩ := exists_add_eq e e' hm hm'
      rw [hadd]
      exact (keepsOrder_round hn d).le hm hu (hvalue ▸ le_add_of_nonneg_right (by positivity))
    | infinity s =>
      have hadd : UnpackedFloat.add Format.binary64 (.infinity s) (.finite s' m' e' hm') =
          .infinity s := rfl
      rw [hadd, unpack_pack hu]

/-! ## Products -/

/-- A product of what is not negative is positive or zero, unless it is undefined. -/
theorem sign_mul_or_zero {u v : UnpackedFloat} (hu : IsProper u) (hv : IsProper v)
    (hu' : 0 ≤ unpackedPlace u) (hv' : 0 ≤ unpackedPlace v)
    (hdef : unpackedSign? (UnpackedFloat.mul Format.binary64 u v) ≠ none) :
    unpackedSign? (UnpackedFloat.mul Format.binary64 u v) = some .positive ∨
      ∃ s, UnpackedFloat.mul Format.binary64 u v = .zero s := by
  cases u with
  | notANumber => exact hu.elim
  | zero s =>
    cases v with
    | notANumber => exact hv.elim
    | infinity s' =>
      -- zero times infinity is undefined
      exact absurd rfl hdef
    | _ => exact .inr ⟨_, rfl⟩
  | finite s m e hm =>
    obtain rfl := sign_of_place_nonneg hu hu'
    cases v with
    | notANumber => exact hv.elim
    | zero s' => exact .inr ⟨_, rfl⟩
    | finite s' m' e' hm' =>
      obtain rfl := sign_of_place_nonneg hv hv'
      exact .inl (unpackedSign?_roundWithAccuracy _ _ _ _)
    | infinity s' =>
      obtain rfl := eq_positive_of_infinity hv'
      exact .inl rfl
  | infinity s =>
    obtain rfl := eq_positive_of_infinity hu'
    cases v with
    | notANumber => exact hv.elim
    | zero s' => exact absurd rfl hdef
    | finite s' m' e' hm' =>
      obtain rfl := sign_of_place_nonneg hv hv'
      exact .inl rfl
    | infinity s' =>
      obtain rfl := eq_positive_of_infinity hv'
      exact .inl rfl

/-! ## Doubles -/

section

variable {x y z : Float}

theorem isNaN_eq_false_of_le (h : x ≤ y) : x.isNaN = false ∧ y.isNaN = false := by
  have hle : x.toModel.unpack.le y.toModel.unpack = true := decide_eq_true_iff.1 h
  change x.toModel.unpack.isNaN = false ∧ y.toModel.unpack.isNaN = false
  generalize x.toModel.unpack = u at hle
  generalize y.toModel.unpack = v at hle
  cases u <;> cases v <;> first | exact ⟨rfl, rfl⟩ | exact nomatch hle

theorem trans_of_le (h : x ≤ y) (h' : y ≤ z) : x ≤ z := by
  obtain ⟨hx, hy⟩ := isNaN_eq_false_of_le h
  obtain ⟨-, hz⟩ := isNaN_eq_false_of_le h'
  rw [le_iff_place_le hx hy] at h
  rw [le_iff_place_le hy hz] at h'
  exact (le_iff_place_le hx hz).2 (h.trans h')

theorem zero_le_iff (hx : x.isNaN = false) : 0 ≤ x ↔ 0 ≤ place x := le_iff_place_le rfl hx

/-- **Adding what is not negative** to what is not negative never makes it less. -/
theorem le_add_of_nonneg (hsum : (x + y).isNaN = false) (hx : 0 ≤ x) (hy : 0 ≤ y) :
    x ≤ x + y := by
  obtain ⟨hxdef, hydef⟩ := isNaN_of_add hsum
  rw [zero_le_iff hxdef, ← unpackedPlace_unpack hxdef] at hx
  rw [zero_le_iff hydef, ← unpackedPlace_unpack hydef] at hy
  rw [le_iff_place_le hxdef hsum, ← unpackedPlace_unpack hxdef, ← unpackedPlace_unpack hsum]
  exact place_le_place_add (isProper_unpack hxdef) (isProper_unpack hydef) hx hy

/-- Adding zero changes nothing that can be compared. -/
theorem add_le_of_not_pos (hsum : (x + y).isNaN = false) (hy : 0 ≤ y) (hy' : ¬ 0 < y) :
    x + y ≤ x := by
  obtain ⟨hxdef, hydef⟩ := isNaN_of_add hsum
  have hzero : unpackedPlace y.toModel.unpack = 0 := by
    rw [unpackedPlace_unpack hydef]
    rw [zero_le_iff hydef] at hy
    rw [lt_iff_place_lt rfl hydef] at hy'
    exact le_antisymm (not_lt.1 hy') hy
  rw [le_iff_place_le hsum hxdef, ← unpackedPlace_unpack hsum, ← unpackedPlace_unpack hxdef]
  exact (place_add_of_place_eq_zero (isProper_unpack hxdef) (isProper_unpack hydef) hzero).le

/-- **A square is not negative**, unless it is undefined. -/
theorem zero_le_mul_self (hx : (x * x).isNaN = false) : 0 ≤ x * x := by
  have hsign : unpackedSign? (x * x).toModel.unpack = some .positive := by
    have hdef := (isNaN_eq_false_iff _).1 hx
    rw [sign?_mul] at hdef
    refine (sign?_mul x x).trans ?_
    generalize x.toModel.unpack = u at hdef
    have hsame (s : Sign) : s * s = .positive := by cases s <;> rfl
    cases u with
    | notANumber => exact absurd rfl hdef
    | finite s m e hm => exact (unpackedSign?_roundWithAccuracy _ _ _ _).trans (congrArg some (hsame s))
    | _ s => exact congrArg some (hsame s)
  rw [zero_le_iff hx, ← unpackedPlace_unpack hx]
  exact unpackedPlace_nonneg (isProper_unpack hx) hsign

/-- **Multiplying what is not negative** gives nothing negative, unless it is undefined. -/
theorem zero_le_mul (hdef : (x * y).isNaN = false) (hx : 0 ≤ x) (hy : 0 ≤ y) : 0 ≤ x * y := by
  obtain ⟨hxdef, hydef⟩ := isNaN_of_mul hdef
  rw [zero_le_iff hxdef, ← unpackedPlace_unpack hxdef] at hx
  rw [zero_le_iff hydef, ← unpackedPlace_unpack hydef] at hy
  have hsign := (isNaN_eq_false_iff _).1 hdef
  rw [sign?_mul] at hsign
  rw [zero_le_iff hdef, ← unpackedPlace_unpack hdef]
  rcases sign_mul_or_zero (isProper_unpack hxdef) (isProper_unpack hydef) hx hy hsign with
    hpositive | ⟨s, hzero⟩
  · exact unpackedPlace_nonneg (isProper_unpack hdef) ((sign?_mul x y).trans hpositive)
  · have hproper : IsProper (.zero s) := trivial
    have hunpack : (x * y).toModel.unpack = .zero s := by
      rw [← unpack_pack hproper, ← hzero]
      rfl
    rw [hunpack]
    exact le_rfl

/-- A double that stands for a number above zero has a mantissa and an exponent. -/
theorem exists_of_value_pos (h : 0 < value x) : ∃ m e hm,
    x.toModel.unpack = .finite .positive m e hm ∧ IsStored m e := by
  unfold value at h
  cases hu : x.toModel.unpack with
  | finite s m e hm =>
    have hx : x.isNaN = false := isNaN_eq_false_of_unpackedSign (congrArg unpackedSign? hu)
    have hproper := isProper_unpack hx
    rw [hu] at h hproper
    cases s with
    | positive => exact ⟨m, e, hm, rfl, hproper⟩
    | negative =>
      have hneg : unpackedValue (.finite .negative m e hm) ≤ 0 := by
        rw [unpackedValue, Sign.apply, Int.cast_neg, neg_mul]
        exact neg_nonpos.2 (by positivity)
      exact absurd h (not_lt.2 hneg)
  | _ =>
    rw [hu] at h
    exact absurd h (lt_irrefl 0)

theorem isNaN_eq_false_of_value_pos (h : 0 < value x) : x.isNaN = false := by
  obtain ⟨_, _, _, hu, -⟩ := exists_of_value_pos h
  exact (place_eq_steps hu).1

/-- Zero, or a fraction up to the greatest double below one. -/
inductive IsFraction : UnpackedFloat → Prop where
  | zero (s : Sign) : IsFraction (.zero s)
  | finite {m e hm} (hstored : IsStored m e) (hle : (m : ℚ) * 2 ^ e ≤ kept) :
      IsFraction (.finite .positive m e hm)

/-- The doubles from zero to one, without one, are fractions. -/
theorem isFraction_of_lt_one (hx : 0 ≤ x) (hlt : x < 1) : IsFraction x.toModel.unpack := by
  obtain ⟨hdef, -⟩ := isNaN_eq_false_of_lt hlt
  obtain ⟨hproper, -, hplace⟩ := unpack_spec hdef
  rw [zero_le_iff hdef, ← hplace] at hx
  rw [lt_iff_place_lt hdef rfl, place_one, ← hplace] at hlt
  generalize x.toModel.unpack = u at hproper hx hlt
  cases u with
  | notANumber => exact hproper.elim
  | zero s => exact .zero s
  | infinity s =>
    obtain rfl := eq_positive_of_infinity hx
    exact absurd hlt (by decide)
  | finite s m e hm =>
    obtain rfl := sign_of_place_nonneg hproper hx
    refine .finite hproper ?_
    obtain ⟨hleast, -, hmantissa, hnormal⟩ := hproper
    -- below one the exponent is at most that of the greatest double there
    have hlt : steps m e < steps (2 ^ 52) (-52) := hlt
    have he : e ≤ -53 := by
      unfold steps at hlt
      omega
    have hmantissa : (m : ℚ) ≤ 2 ^ 53 - 1 := by
      rw [le_sub_iff_add_le]
      exact_mod_cast hmantissa
    calc (m : ℚ) * 2 ^ e ≤ (2 ^ 53 - 1) * 2 ^ (-53 : ℤ) :=
          mul_le_mul hmantissa (zpow_le_zpow_right₀ one_le_two he) (by positivity) (by norm_num)
      _ = kept := by norm_num [kept]

/-- **A fraction of a normal double** is less than the double, unless that is the least. -/
theorem mul_lt_of_lt_one (hy : 0 ≤ y) (hlt : y < 1) (hx : leastNormal < value x) : y * x < x := by
  obtain ⟨M, E, hM, hu, hstored⟩ := exists_of_value_pos (leastNormal_pos.trans hx)
  obtain ⟨hxdef, hplacex⟩ := place_eq_steps hu
  have hunpack : (y * x).toModel.unpack = unpack Format.binary64 (pack Format.binary64
      (UnpackedFloat.mul Format.binary64 y.toModel.unpack (.finite .positive M E hM))) := by
    rw [← hu]
    rfl
  rw [value_eq hu] at hx
  obtain ⟨hdef, hless⟩ : (y * x).isNaN = false ∧ place (y * x) < steps M E := by
    have hfraction := isFraction_of_lt_one hy hlt
    generalize y.toModel.unpack = v at hfraction hunpack
    cases hfraction with
    | zero s =>
      have hmul : UnpackedFloat.mul Format.binary64 (.zero s) (.finite .positive M E hM) =
          .zero (s * .positive) := rfl
      have hproper : IsProper (.zero (s * .positive)) := trivial
      rw [hmul, unpack_pack hproper] at hunpack
      have hdef := isNaN_eq_false_of_unpackedSign (congrArg unpackedSign? hunpack)
      rw [← unpackedPlace_unpack hdef, hunpack]
      exact ⟨hdef, hstored.steps_pos hM⟩
    | @finite m e hm hstored' hle =>
      have hmul : UnpackedFloat.mul Format.binary64 (.finite .positive m e hm)
          (.finite .positive M E hM) =
            roundWithAccuracy Format.binary64 .positive (m * M) (e + E) .exact := rfl
      rw [hmul] at hunpack
      have hdef : (y * x).isNaN = false := by
        apply isNaN_eq_false_of_unpackedSign
        rw [hunpack, unpackedSign?_unpack_pack]
        exact unpackedSign?_roundWithAccuracy _ _ _ _
      -- before rounding the product is at most what the greatest fraction keeps
      have hscaled : ((m * M : ℕ) : ℚ) * 2 ^ (e + E) ≤ M * 2 ^ E * kept := by
        rw [zpow_add₀ two_ne_zero]
        push_cast
        calc (m * M : ℚ) * (2 ^ e * 2 ^ E) = M * 2 ^ E * (m * 2 ^ e) := by ring
          _ ≤ M * 2 ^ E * kept := by gcongr
      have hkeeps := keepsOrder_roundWithAccuracy (Nat.mul_pos hm hM)
        (hstored'.add_le_roundingExponent hstored hm hM)
      rw [← unpackedPlace_unpack hdef]
      refine ⟨hdef, ?_⟩
      rw [hunpack]
      exact hkeeps.lt hstored hx hscaled
  exact (lt_iff_place_lt hdef hxdef).2 (hplacex ▸ hless)

/-- The greatest double below one. -/
def belowOne : Float := 0.9999999999999999

theorem belowOne_spec : 0 ≤ belowOne ∧ belowOne < 1 ∧
    ∃ hm, belowOne.toModel.unpack = .finite .positive (2 ^ 53 - 1) (-53) hm := by
  refine ⟨by decide +kernel, by decide +kernel, by decide, ?_⟩
  rfl

/-- Up to the least normal double the greatest fraction of a mantissa is rounded to all of it. -/
theorem roundedShift_fraction {M : ℕ} (hM : 0 < M) (hle : M ≤ 2 ^ 52) :
    roundedShift ((2 ^ 53 - 1) * M) 53 = M := by
  rcases hle.lt_or_eq with hlt | rfl
  · -- less than half a step is left off
    obtain ⟨hupper, hlower, -⟩ := roundedShift_spec ((2 ^ 53 - 1) * M) 53
    omega
  · -- half a step is left off, and the mantissa is even
    decide +kernel

/-- **Up to the least normal double** a fraction may be rounded to the double itself. -/
theorem belowOne_mul_eq (hpos : 0 < value x) (hsmall : value x ≤ leastNormal) :
    belowOne * x = x := by
  obtain ⟨M, E, hM, hu, hstored⟩ := exists_of_value_pos hpos
  rw [value_eq hu] at hsmall
  -- up to the least normal double the places are one least step apart
  obtain ⟨rfl, hle⟩ : E = -1074 ∧ M ≤ 2 ^ 52 := by
    have hleast : IsStored (2 ^ 52) (-1074) := ⟨le_rfl, by decide, by decide, .inl rfl⟩
    have hvalue : leastNormal = (2 ^ 52 : ℕ) * 2 ^ (-1074 : ℤ) := by
      rw [leastNormal, show (-1022 : ℤ) = (52 : ℕ) + -1074 by rfl, zpow_add₀ two_ne_zero,
        zpow_natCast, Nat.cast_pow, Nat.cast_two]
    rw [hvalue, ← hstored.steps_le_iff hleast] at hsmall
    have hexponent := hstored.least
    unfold steps at hsmall
    omega
  obtain ⟨-, -, hm, hu'⟩ := belowOne_spec
  -- so the product drops just the bits that the factor has put below the least step
  have hk : roundingExponent ((2 ^ 53 - 1) * M) (-53 + -1074) = -53 + -1074 + (53 : ℕ) := by
    have hpos : (2 ^ 53 - 1) * M ≠ 0 := (Nat.mul_pos hm hM).ne'
    have hlog : ((2 ^ 53 - 1) * M).log2 < 105 := (Nat.log2_lt hpos).2 (by omega)
    unfold roundingExponent
    omega
  have hround : roundWithAccuracy Format.binary64 .positive ((2 ^ 53 - 1) * M) (-53 + -1074)
      .exact = .finite .positive M (-1074) hM := by
    have hsum : (-53 + -1074 + (53 : ℕ) : ℤ) = -1074 := rfl
    rw [Double.roundWithAccuracy_eq .positive hk, roundedShift_fraction hM hle, hsum,
      hstored.roundingExponent_eq hM]
    simp [hM.ne']
  have hmul : UnpackedFloat.mul Format.binary64 (.finite .positive (2 ^ 53 - 1) (-53) hm)
      (.finite .positive M (-1074) hM) = .finite .positive M (-1074) hM := hround
  apply mul_eq_of_unpack (place_eq_steps hu).1
  rw [hu, hu', hmul]

end

end QuantumWorkbench.Double
