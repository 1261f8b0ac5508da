import Mathlib
import QuantumWorkbench.Proofs.Double.Rounding
import QuantumWorkbench.Proofs.Gate.Fidelity

/-!
# Fidelities as doubles

The constructors ask for a fidelity above zero and up to one. Doubles in that range are multiplied
by what a noise level leaves and by each other, and the product leaves the range in two ways only:
it is undefined where the level is, and it is zero where the exact product is at most half the least
double.
-/

namespace QuantumWorkbench

namespace Double

open Float.Model Float.Model.UnpackedFloat

/-! ## Lost fidelities -/

/-- A double that a fidelity is lost to: undefined or zero. -/
def Lost (x : Float) : Prop := x = .nan ∨ x = 0

theorem not_inUnit_of_lost {x : Float} (hx : Lost x) : ¬ InUnit x := by
  rcases hx with rfl | rfl <;> decide +kernel

theorem value_of_lost {x : Float} (hx : Lost x) : value x = 0 := by
  rcases hx with rfl | rfl <;> rfl

theorem inUnit_of_value_ne_zero {x : Float} (hx : InUnit x ∨ Lost x) (h : value x ≠ 0) :
    InUnit x :=
  hx.resolve_right fun hlost => h (value_of_lost hlost)

/-- A rounded number from zero to one is in the range or lost. -/
theorem Rounds.inUnit_or_lost {v : ℚ} {x : Float} (h : Rounds v x.toModel.unpack) :
    InUnit x ∨ Lost x := by
  rcases lt_or_ge halfLeast v with hlarge | hsmall
  · exact .inl (h.inUnit_iff.2 hlarge)
  · exact .inr (.inr (h.eq_zero hsmall))

theorem mul_nan (x : Float) : x * .nan = .nan := by
  change Float.ofModel (Float.Model.pack (UnpackedFloat.mul Format.binary64 x.toModel.unpack
    .notANumber)) = .nan
  cases x.toModel.unpack <;> rfl

theorem mul_zero_of_inUnit {x : Float} (hx : InUnit x) : x * 0 = 0 := by
  obtain ⟨m, e, hm, hu, -⟩ := inUnit_iff.1 hx
  change Float.ofModel (Float.Model.pack (UnpackedFloat.mul Format.binary64 x.toModel.unpack _)) = 0
  rw [hu]
  rfl

theorem zero_mul_of_inUnit {x : Float} (hx : InUnit x) : 0 * x = 0 := by
  obtain ⟨m, e, hm, hu, -⟩ := inUnit_iff.1 hx
  change Float.ofModel (Float.Model.pack (UnpackedFloat.mul Format.binary64 _ x.toModel.unpack)) = 0
  rw [hu]
  rfl

/-- Either zero is taken from one without a trace. -/
theorem one_sub_of_not_lt {x : Float} (hx : x.isNaN = false) (hneg : ¬ x < 0) (hpos : ¬ 0 < x) :
    1 - x = 1 := by
  obtain ⟨hproper, hsign, hplace⟩ := unpack_spec hx
  -- neither above nor below zero: only the two zeros are left
  have hzero : place x = 0 := by
    rw [lt_iff_place_lt rfl hx] at hpos
    rw [lt_iff_place_lt hx rfl] at hneg
    exact le_antisymm (not_lt.1 hpos) (not_lt.1 hneg)
  change Float.ofModel (Float.Model.pack (UnpackedFloat.sub Format.binary64 _ x.toModel.unpack)) = 1
  rw [eq_zero_of_place hproper hsign (hplace.trans hzero)]
  rfl

/-- **Products of fidelities** are in the range or lost, and what is lost stays lost. -/
theorem inUnit_or_lost_mul {x y : Float} (hx : InUnit x ∨ Lost x) (hy : InUnit y ∨ Lost y) :
    InUnit (x * y) ∨ Lost (x * y) := by
  rcases hx with hx | rfl | rfl
  · rcases hy with hy | rfl | rfl
    · exact (rounds_mul hx hy).inUnit_or_lost
    · exact .inr (.inl (mul_nan x))
    · exact .inr (.inr (mul_zero_of_inUnit hx))
  · exact .inr (.inl rfl)
  · rcases hy with hy | rfl | rfl
    · exact .inr (.inr (zero_mul_of_inUnit hy))
    · exact .inr (.inl rfl)
    · exact .inr (.inr rfl)

end Double

namespace Gate

open Double

/-! ## Noise -/

theorem noiseFactor_nan : noiseFactor Float.nan = Float.nan := rfl

/-- The part of a fidelity that noise leaves at the least: the gap below one, but for rounding. -/
def leastFactor : ℚ := 2 ^ (-52 : ℤ) * kept

/-- What a double below one leaves of one is in the range, as no double is too near to one. -/
theorem one_sub_spec {x : Float} (hx : InUnit x) (hle : value x ≤ 1 - 2 ^ (-52 : ℤ)) :
    InUnit (1 - x) ∧ leastFactor ≤ value (1 - x) := by
  have hgap : (2 : ℚ) ^ (-52 : ℤ) ≤ 1 - value x := by linarith
  have hnormal : leastNormal ≤ 1 - value x :=
    (zpow_le_zpow_right₀ one_le_two (by decide)).trans hgap
  have hrounds := rounds_one_sub hx (hle.trans_lt (by norm_num))
  refine ⟨hrounds.inUnit_iff.2 (halfLeast_lt_leastNormal.trans_le hnormal), ?_⟩
  exact (mul_le_mul_of_nonneg_right hgap kept_pos.le).trans (hrounds.mul_kept_le hnormal)

theorem inUnit_largestLevel : InUnit largestLevel := by decide +kernel

theorem value_largestLevel : value largestLevel = 1 - 2 ^ (-52 : ℤ) := by
  rw [value_eq (show (largestLevel : Float).toModel.unpack =
    .finite .positive (2 ^ 53 - 2) (-53) (by decide) from rfl)]
  norm_num

/-- **Every level that is defined** leaves a factor in the range, and not too small a one. -/
theorem noiseFactor_spec {level : Float} (hlevel : level ≠ .nan) :
    InUnit (noiseFactor level) ∧ leastFactor ≤ value (noiseFactor level) := by
  have hdefined : level.isNaN = false := by simpa using hlevel
  have hone : InUnit 1 ∧ leastFactor ≤ value 1 := by
    refine ⟨by decide +kernel, ?_⟩
    rw [value_eq (show (1 : Float).toModel.unpack = .finite .positive (2 ^ 52) (-52) (by decide)
      from rfl)]
    norm_num [leastFactor, kept]
  unfold noiseFactor
  split_ifs with hneg hlarge
  · exact hone
  · exact one_sub_spec inUnit_largestLevel value_largestLevel.le
  · have hle : level ≤ largestLevel := le_of_not_lt rfl hdefined hlarge
    by_cases hpos : 0 < level
    · have hunit : InUnit level := by
        refine ⟨hpos, ?_⟩
        rw [le_iff_place_le hdefined rfl] at hle ⊢
        exact hle.trans (by decide +kernel)
      have hvalue := hunit.value_le_value inUnit_largestLevel hle
      exact one_sub_spec hunit (hvalue.trans_eq value_largestLevel)
    · -- one of the two zeros
      have hsub : (1 - level : Float) = 1 := one_sub_of_not_lt hdefined hneg hpos
      exact hsub.symm ▸ hone

/-! ## Fidelities of constructed gates -/

variable {g : Gate Float}

/-- **What noise leaves is in the range** exactly where the level is defined and the product is more
than half the least double. -/
theorem inUnit_withNoise_iff (hg : InUnit g.fidelity) (level : Float) :
    InUnit (g.withNoise level).fidelity ↔
      level ≠ .nan ∧ halfLeast < value g.fidelity * value (noiseFactor level) := by
  rw [withNoise_fidelity]
  by_cases hlevel : level = .nan
  · refine iff_of_false ?_ fun h => h.1 hlevel
    rw [hlevel, noiseFactor_nan, mul_nan]
    exact not_inUnit_of_lost (.inl rfl)
  · rw [(rounds_mul hg (noiseFactor_spec hlevel).1).inUnit_iff]
    exact (and_iff_right hlevel).symm

/-- A defined level leaves a fidelity in the range, unless the fidelity was very small before. -/
theorem inUnit_withNoise (hg : InUnit g.fidelity) {level : Float} (hlevel : level ≠ .nan)
    (hnormal : leastNormal ≤ value g.fidelity) : InUnit (g.withNoise level).fidelity := by
  refine (inUnit_withNoise_iff hg level).2 ⟨hlevel, ?_⟩
  have hfactor : (2 : ℚ) ^ (-53 : ℤ) < leastFactor := by norm_num [leastFactor, kept]
  calc halfLeast = leastNormal * 2 ^ (-53 : ℤ) := by
        rw [halfLeast, leastNormal, ← zpow_add₀ two_ne_zero]
        rfl
    _ < leastNormal * leastFactor := mul_lt_mul_of_pos_left hfactor leastNormal_pos
    _ ≤ value g.fidelity * value (noiseFactor level) :=
      mul_le_mul hnormal (noiseFactor_spec hlevel).2 ((zpow_pos two_pos _).trans hfactor).le
        hg.value_pos.le

theorem checkFidelity_double (x : Float) :
    checkFidelity x = if InUnit x then .ok () else .error (.badFidelity x) := rfl

/-- **The fidelity of a constructed gate** is in the range, or it was lost to noise. -/
theorem Built.inUnit_or_lost (hg : g.Built) : InUnit g.fidelity ∨ Lost g.fidelity := by
  -- a given fidelity is checked, and what noise leaves is a product with a factor in the range
  refine hg.fidelity_of (P := fun x => InUnit x ∨ Lost x) (.inl (by decide +kernel)) ?_ ?_
  · intro x hcheck
    rw [checkFidelity_double] at hcheck
    split_ifs at hcheck with hx
    exact .inl hx
  · intro g level hg
    refine inUnit_or_lost_mul hg ?_
    by_cases hlevel : level = .nan
    · exact .inr (.inl (hlevel ▸ noiseFactor_nan))
    · exact .inl (noiseFactor_spec hlevel).1

end Gate

end QuantumWorkbench
