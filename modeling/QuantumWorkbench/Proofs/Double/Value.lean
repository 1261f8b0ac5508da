import Mathlib
import QuantumWorkbench.Proofs.Double.Sign

/-!
# The numbers that doubles stand for

A finite double stands for an integer multiple of a power of two. One whose mantissa and exponent
are as they are stored is packed without loss, and the doubles above zero and up to one are those
that stand for such numbers.
-/

namespace QuantumWorkbench.Double

open Float.Model Float.Model.UnpackedFloat

/-! ## Packing without loss -/

theorem unpack_packComponents_normal (s : Sign) {exponent : BitVec 11} (mantissa : BitVec 52)
    (hones : exponent ≠ -1#11) (hnone : exponent ≠ 0#11) : ∃ hm,
      unpack Format.binary64 (packComponents Format.binary64 s exponent mantissa) =
        .finite s (2 ^ 52 + mantissa.toNat) (exponent.toNat - 1075) hm := by
  simp only [UnpackedFloat.unpack, unpackMantissa_packComponents, unpackExponent_packComponents,
    unpackSign_packComponents, if_neg hones, if_neg hnone, toNat_one_append]
  exact ⟨Nat.add_pos_left (Nat.two_pow_pos 52) _, rfl⟩

theorem unpack_packComponents_subnormal (s : Sign) {mantissa : BitVec 52} (h : mantissa ≠ 0#52) :
    ∃ hm, unpack Format.binary64 (packComponents Format.binary64 s 0#11 mantissa) =
      .finite s mantissa.toNat (-1074) hm := by
  simp only [UnpackedFloat.unpack, unpackMantissa_packComponents, unpackExponent_packComponents,
    unpackSign_packComponents, dif_neg h]
  exact ⟨Nat.pos_of_ne_zero fun hzero => h (BitVec.eq_of_toNat_eq hzero), rfl⟩

section

variable {s : Sign} {m : ℕ} {e : ℤ} {hm : 0 < m}

/-- How a stored mantissa and exponent are packed: with the leading bit left out where there is one,
and otherwise as they are under the exponent zero. -/
theorem pack_finite (h : IsStored m e) : pack Format.binary64 (.finite s m e hm) =
    if m.log2 + 1 = 53 then
      packComponents Format.binary64 s (BitVec.ofNat 11 (e + 1023 + 52).toNat) (BitVec.ofNat 52 m)
    else packComponents Format.binary64 s 0#11 (BitVec.ofNat 52 m) := by
  obtain ⟨hleast, hgreatest, -, -⟩ := h
  exact if_neg (show ¬ 2 ^ 11 ≤ (e + 1023 + 52).toNat + 1 by omega)

theorem unpack_pack_normal (h : IsStored m e) (hwide : 2 ^ 52 ≤ m) :
    unpack Format.binary64 (pack Format.binary64 (.finite s m e hm)) = .finite s m e hm := by
  have hlog : m.log2 + 1 = 53 := by rw [(Nat.log2_eq_iff hm.ne').2 ⟨hwide, h.mantissa_lt⟩]
  rw [pack_finite h, if_pos hlog]
  obtain ⟨hleast, hgreatest, hlt, -⟩ := h
  obtain ⟨biased, hbiased⟩ : ∃ biased, (e + 1023 + 52).toNat = biased := ⟨_, rfl⟩
  rw [hbiased]
  have hexponent : (BitVec.ofNat 11 biased).toNat = biased := by
    rw [BitVec.toNat_ofNat]
    omega
  have hmantissa : (BitVec.ofNat 52 m).toNat = m - 2 ^ 52 := by
    rw [BitVec.toNat_ofNat]
    omega
  have hones : BitVec.ofNat 11 biased ≠ -1#11 := fun hones => by
    have hones : (BitVec.ofNat 11 biased).toNat = 2047 := congrArg BitVec.toNat hones
    omega
  have hnone : BitVec.ofNat 11 biased ≠ 0#11 := fun hnone => by
    have hnone : (BitVec.ofNat 11 biased).toNat = 0 := congrArg BitVec.toNat hnone
    omega
  obtain ⟨hm', hunpack⟩ := unpack_packComponents_normal s (BitVec.ofNat 52 m) hones hnone
  rw [hunpack, UnpackedFloat.finite.injEq]
  exact ⟨rfl, by omega, by omega⟩

theorem unpack_pack_subnormal (h : IsStored m e) (hshort : m < 2 ^ 52) :
    unpack Format.binary64 (pack Format.binary64 (.finite s m e hm)) = .finite s m e hm := by
  have hlog : m.log2 < 52 := (Nat.log2_lt hm.ne').2 hshort
  have hmantissa : (BitVec.ofNat 52 m).toNat = m := by
    rw [BitVec.toNat_ofNat]
    omega
  have hzero : BitVec.ofNat 52 m ≠ 0#52 := fun hzero => by
    have hzero : (BitVec.ofNat 52 m).toNat = 0 := congrArg BitVec.toNat hzero
    omega
  obtain ⟨hm', hunpack⟩ := unpack_packComponents_subnormal s hzero
  rw [pack_finite h, if_neg (by omega), hunpack, UnpackedFloat.finite.injEq]
  obtain ⟨-, -, -, hstored⟩ := h
  exact ⟨rfl, by omega, by omega⟩

end

/-- A stored mantissa and exponent come back from the bits that they are packed in. -/
theorem unpack_pack_finite (s : Sign) {m : ℕ} {e : ℤ} (hm : 0 < m) (h : IsStored m e) :
    unpack Format.binary64 (pack Format.binary64 (.finite s m e hm)) = .finite s m e hm := by
  rcases le_or_gt (2 ^ 52) m with hwide | hshort
  · exact unpack_pack_normal h hwide
  · exact unpack_pack_subnormal h hshort

/-! ## Values -/

/-- The number that an unpacked double stands for, zero where it stands for none. -/
def unpackedValue : UnpackedFloat → ℚ
  | .finite s m e _ => s.apply m * 2 ^ e
  | _ => 0

/-- The number that a double stands for, zero where it is infinite or undefined. -/
def value (x : Float) : ℚ := unpackedValue x.toModel.unpack

section

variable {m m' : ℕ} {e e' : ℤ}

/-- Among stored doubles above zero, fewer steps are a smaller number. -/
theorem IsStored.lt_of_steps_lt (h : IsStored m e) (h' : IsStored m' e')
    (hlt : steps m e < steps m' e') : (m : ℚ) * 2 ^ e < m' * 2 ^ e' := by
  obtain ⟨hleast, -, hmantissa, hnormal⟩ := h
  obtain ⟨hleast', -, hmantissa', hnormal'⟩ := h'
  unfold steps at hlt
  have hpos : (0 : ℚ) < 2 ^ e := by positivity
  rcases lt_trichotomy e e' with he | rfl | he
  · -- the larger exponent comes with a leading bit
    have hlong : 2 ^ 52 ≤ m' := by omega
    calc (m : ℚ) * 2 ^ e < 2 ^ 53 * 2 ^ e := by gcongr; exact_mod_cast hmantissa
      _ = 2 ^ 52 * 2 ^ (e + 1) := by rw [zpow_add_one₀ two_ne_zero]; ring
      _ ≤ m' * 2 ^ e' := by
        gcongr
        · exact_mod_cast hlong
        · exact one_le_two
        · omega
  · gcongr
    omega
  · omega

theorem IsStored.steps_le_iff (h : IsStored m e) (h' : IsStored m' e') :
    steps m e ≤ steps m' e' ↔ (m : ℚ) * 2 ^ e ≤ m' * 2 ^ e' := by
  constructor
  · intro hle
    rcases hle.lt_or_eq with hlt | heq
    · exact (h.lt_of_steps_lt h' hlt).le
    · obtain ⟨hleast, -, hmantissa, hnormal⟩ := h
      obtain ⟨hleast', -, hmantissa', hnormal'⟩ := h'
      unfold steps at heq
      obtain rfl : e = e' := by omega
      obtain rfl : m = m' := by omega
      exact le_rfl
  · intro hle
    by_contra hlt
    exact absurd hle (not_le.2 (h'.lt_of_steps_lt h (not_le.1 hlt)))

end

section

variable {x y : Float}

/-- An undefined double is neither below nor above any other. -/
theorem isNaN_eq_false_of_lt (h : x < y) : x.isNaN = false ∧ y.isNaN = false := by
  have hlt : x.toModel.unpack.lt y.toModel.unpack = true := decide_eq_true_iff.1 h
  change x.toModel.unpack.isNaN = false ∧ y.toModel.unpack.isNaN = false
  generalize x.toModel.unpack = u at hlt
  generalize y.toModel.unpack = v at hlt
  cases u <;> cases v <;> first | exact ⟨rfl, rfl⟩ | exact nomatch hlt

theorem le_of_not_lt (hx : x.isNaN = false) (hy : y.isNaN = false) (h : ¬ x < y) : y ≤ x := by
  rw [lt_iff_place_lt hx hy] at h
  exact (le_iff_place_le hy hx).2 (not_lt.1 h)

theorem isNaN_eq_false_of_unpackedSign {s : Sign} (h : unpackedSign? x.toModel.unpack = some s) :
    x.isNaN = false := by
  rw [isNaN_eq_false_iff, sign?, h]
  exact Option.some_ne_none s

/-- Positive zero is the only double that unpacks to it. -/
theorem eq_zero_of_unpack_eq (h : x.toModel.unpack = .zero .positive) : x = 0 := by
  have hx : x.isNaN = false := isNaN_eq_false_of_unpackedSign (congrArg unpackedSign? h)
  obtain ⟨-, hsign, hplace⟩ := unpack_spec hx
  rw [h] at hsign hplace
  have hpositive : sign x = .positive := (Option.some.inj hsign).symm
  have hmagnitude : magnitude x = 0 := by
    rw [place, hpositive] at hplace
    exact Int.natCast_eq_zero.1 hplace.symm
  have hbits : x.toBits.toNat = 0 := by
    by_contra hne
    unfold sign at hpositive
    unfold magnitude at hmagnitude
    split_ifs at hpositive
    omega
  obtain ⟨⟨bits, hvalid⟩⟩ := x
  obtain rfl : bits = 0 := UInt64.toNat_inj.1 hbits
  rfl

/-! ## From zero to one -/

/-- A double lies above zero and at most at one. -/
def InUnit (x : Float) : Prop := 0 < x ∧ x ≤ 1

instance : DecidablePred InUnit := fun x => inferInstanceAs (Decidable (0 < x ∧ x ≤ 1))

/-- A positive double is defined, and its place tells its mantissa and exponent. -/
theorem place_eq_steps {m : ℕ} {e : ℤ} {hm} (hu : x.toModel.unpack = .finite .positive m e hm) :
    x.isNaN = false ∧ place x = steps m e := by
  have hx : x.isNaN = false := isNaN_eq_false_of_unpackedSign (congrArg unpackedSign? hu)
  refine ⟨hx, ?_⟩
  rw [← unpackedPlace_unpack hx, hu]
  rfl

theorem place_one : place 1 = steps (2 ^ 52) (-52) := rfl

/-- **The doubles from zero to one** stand for the numbers from zero to one. -/
theorem inUnit_iff : InUnit x ↔ ∃ m e hm, x.toModel.unpack = .finite .positive m e hm ∧
    IsStored m e ∧ (m : ℚ) * 2 ^ e ≤ 1 := by
  have hstoredOne : IsStored (2 ^ 52) (-52) := ⟨by decide, by decide, by decide, .inr le_rfl⟩
  have hvalueOne : ((2 ^ 52 : ℕ) : ℚ) * 2 ^ (-52 : ℤ) = 1 := by norm_num
  constructor
  · rintro ⟨hpos, hle⟩
    have hx := (isNaN_eq_false_of_lt hpos).2
    obtain ⟨hproper, -, hplace⟩ := unpack_spec hx
    rw [lt_iff_place_lt rfl hx, show place 0 = 0 from rfl, ← hplace] at hpos
    rw [le_iff_place_le hx rfl, place_one, ← hplace] at hle
    generalize x.toModel.unpack = u at hproper hpos hle
    -- above zero there are only positive doubles, and no infinity is at most one
    cases u with
    | notANumber => exact hproper.elim
    | zero s => exact absurd hpos (lt_irrefl 0)
    | finite s m e hm =>
      cases s with
      | positive => exact ⟨m, e, hm, rfl, hproper,
          hvalueOne ▸ (IsStored.steps_le_iff hproper hstoredOne).1 hle⟩
      | negative =>
        exact absurd hpos (not_lt.2 (neg_nonpos.2 (IsStored.steps_pos hproper hm).le))
    | infinity s => cases s <;> simp [unpackedPlace, Sign.apply, endSteps, steps] at hpos hle
  · rintro ⟨m, e, hm, hu, hstored, hle⟩
    obtain ⟨hx, hplace⟩ := place_eq_steps hu
    rw [InUnit, lt_iff_place_lt rfl hx, le_iff_place_le hx rfl, place_one, hplace]
    exact ⟨hstored.steps_pos hm, (hstored.steps_le_iff hstoredOne).2 (hvalueOne ▸ hle)⟩

theorem value_eq {m : ℕ} {e : ℤ} {hm} (h : x.toModel.unpack = .finite .positive m e hm) :
    value x = m * 2 ^ e := by
  rw [value, h, unpackedValue, Sign.apply, Int.cast_natCast]

theorem InUnit.value_pos (h : InUnit x) : 0 < value x := by
  obtain ⟨m, e, hm, hu, -, -⟩ := inUnit_iff.1 h
  rw [value_eq hu]
  positivity

theorem InUnit.value_le_one (h : InUnit x) : value x ≤ 1 := by
  obtain ⟨m, e, hm, hu, -, hle⟩ := inUnit_iff.1 h
  rwa [value_eq hu]

/-- **From zero to one the doubles are in the order of their numbers.** -/
theorem InUnit.value_le_value (hx : InUnit x) (hy : InUnit y) (h : x ≤ y) :
    value x ≤ value y := by
  obtain ⟨m, e, hm, hu, hstored, -⟩ := inUnit_iff.1 hx
  obtain ⟨m', e', hm', hu', hstored', -⟩ := inUnit_iff.1 hy
  obtain ⟨hxdef, hplace⟩ := place_eq_steps hu
  obtain ⟨hydef, hplace'⟩ := place_eq_steps hu'
  rw [le_iff_place_le hxdef hydef, hplace, hplace'] at h
  rw [value_eq hu, value_eq hu']
  exact (hstored.steps_le_iff hstored').1 h

end

end QuantumWorkbench.Double
