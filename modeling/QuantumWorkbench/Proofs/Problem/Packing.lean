import Mathlib
import QuantumWorkbench.Proofs.Problem.Objective
import QuantumWorkbench.Proofs.Qubo.Assignment

/-!
# Packings of least energy

The objective of a knapsack weighs the squared distance of the load from the capacity more than all
values together, whichever side the load lies on. With whole numbers a nearer load therefore always
wins, and the values decide between loads that are equally near. Whether the winner fits is another
matter: a load just above the capacity goes before one further below it.
-/

namespace QuantumWorkbench

open Qubo

namespace Encoding

/-! ## Variables of a knapsack -/

theorem lt_of_mem_zipIdx {β : Type} {xs : List β} {e : β × ℕ} (h : e ∈ xs.zipIdx) :
    e.2 < xs.length := by
  obtain ⟨i, hi, rfl⟩ := List.mem_iff_getElem.1 h
  simpa using hi

/-- A knapsack has a variable for each item. -/
theorem width_knapsack (weights values : List ℝ) (capacity : ℝ) :
    (knapsack weights values capacity).qubo.width = weights.length := by
  have hdeclared : (knapsack weights values capacity).qubo.IsDeclared := by
    refine ((isDeclared_ofTerms fun t ht => ?_).addTerms fun t ht => ?_).addTerms fun t ht => ?_
    · obtain ⟨e, he, rfl⟩ := List.mem_map.1 ht
      have hlt : e.2 < weights.length :=
        (lt_of_mem_zipIdx he).trans_le (List.length_take_le _ _)
      exact ⟨hlt, hlt⟩
    · obtain ⟨e, he, ht⟩ := List.mem_flatMap.1 ht
      obtain ⟨e', he', rfl⟩ := List.mem_map.1 ht
      exact ⟨lt_of_mem_zipIdx he, lt_of_mem_zipIdx he'⟩
    · obtain ⟨e, he, rfl⟩ := List.mem_map.1 ht
      exact ⟨lt_of_mem_zipIdx he, lt_of_mem_zipIdx he⟩
  exact hdeclared.width_eq

end Encoding

/-- Items with whole weights and positive whole values, and a whole capacity. -/
structure Sack where
  weights : List ℕ
  values : List ℕ
  capacity : ℕ
  length_values : values.length = weights.length
  value_pos : ∀ v ∈ values, 0 < v

namespace Sack

/-! ## Loads and values -/

/-- The sum of the amounts of the chosen items. -/
def total (bits : List ℕ) (amounts : List ℕ) : ℕ :=
  ∑ i ∈ Finset.range amounts.length, amounts.getD i 0 * bitAt bits i

theorem total_le_sum {bits : List ℕ} (hbits : IsAssignment bits) (amounts : List ℕ) :
    total bits amounts ≤ amounts.sum := by
  have hsum : amounts.sum = ∑ i ∈ Finset.range amounts.length, amounts.getD i 0 := by
    rw [← Fin.sum_univ_getElem, Finset.sum_range]
    exact Finset.sum_congr rfl fun i _ => (List.getD_eq_getElem amounts 0 i.isLt).symm
  rw [hsum]
  refine Finset.sum_le_sum fun i _ => ?_
  have hbit : bitAt bits i ≤ 1 := Nat.le_of_lt_succ (hbits.bitAt_lt i)
  exact (Nat.mul_le_mul_left _ hbit).trans_eq (Nat.mul_one _)

theorem chosen_natCast (bits amounts : List ℕ) :
    ProblemData.chosen bits amounts.length (amounts.map (Nat.cast : ℕ → ℝ)) =
      total bits amounts := by
  rw [ProblemData.chosen, total, Nat.cast_sum]
  refine Finset.sum_congr rfl fun i _ => ?_
  have hcast := List.getD_map (l := amounts) (d := 0) (n := i) (Nat.cast : ℕ → ℝ)
  rw [Nat.cast_zero] at hcast
  rw [hcast, Nat.cast_mul]

section

variable (s : Sack) (bits bits' : List ℕ)

/-- The weight of the chosen items. -/
def load : ℕ := total bits s.weights

/-- The value of the chosen items. -/
def value : ℕ := total bits s.values

/-- The distance of a load from the capacity, on either side. -/
def gap : ℕ := ((s.load bits : ℤ) - s.capacity).natAbs

/-- Whether the chosen items fit. -/
def Fits : Prop := s.load bits ≤ s.capacity

/-- A packing goes before another when its load is nearer to the capacity, or as near and worth
more. -/
def Before : Prop :=
  s.gap bits < s.gap bits' ∨ s.gap bits = s.gap bits' ∧ s.value bits' < s.value bits

instance : Decidable (s.Fits bits) := inferInstanceAs (Decidable (_ ≤ _))

instance : Decidable (s.Before bits bits') := inferInstanceAs (Decidable (_ ∨ _ ∧ _))

/-- The encoding of the items. -/
noncomputable def encoding : Encoding ℝ :=
  .knapsack (s.weights.map Nat.cast) (s.values.map Nat.cast) s.capacity

end

variable (s : Sack)

/-- Items without value are no items, so there is one load only. -/
theorem gap_eq_of_sum_values (h : s.values.sum = 0) (bits bits' : List ℕ) :
    s.gap bits = s.gap bits' := by
  have hvalues : s.values = [] := List.eq_nil_iff_forall_not_mem.2 fun v hv => by
    have hzero := List.sum_eq_zero_iff.1 h v hv
    exact absurd (s.value_pos v hv) (by omega)
  have hweights : s.weights = [] := by
    rw [← List.length_eq_zero_iff, ← s.length_values, hvalues, List.length_nil]
  simp [gap, load, total, hweights]

/-! ## Energies -/

theorem width_qubo : s.encoding.qubo.width = s.weights.length := by
  rw [encoding, Encoding.width_knapsack, List.length_map]

/-- Up to a constant the energy is the squared gap, weighed by twice the sum of all values, less the
value of the packing. -/
theorem evaluate_eq {bits : List ℕ} (hbits : IsAssignment bits) :
    s.encoding.qubo.evaluate bits = (2 * s.values.sum * s.gap bits ^ 2 : ℕ) - s.value bits -
      2 * s.values.sum * s.capacity ^ 2 := by
  have hload := chosen_natCast bits s.weights
  have hvalue := chosen_natCast bits s.values
  rw [s.length_values] at hvalue
  have hgap : (s.gap bits : ℝ) ^ 2 = ((total bits s.weights : ℝ) - s.capacity) ^ 2 := by
    have hsquare : (s.gap bits : ℤ) ^ 2 = ((s.load bits : ℤ) - s.capacity) ^ 2 := Int.natAbs_sq _
    exact_mod_cast congrArg (Int.cast : ℤ → ℝ) hsquare
  have hsum : (s.values.map (Nat.cast : ℕ → ℝ)).sum = s.values.sum := (Nat.cast_list_sum _).symm
  rw [encoding, Encoding.evaluate_knapsack hbits, List.length_map, hload, hvalue, hsum, value]
  push_cast
  rw [hgap]
  ring

/-- **A packing has less energy than another exactly when it goes before it.** -/
theorem evaluate_lt_iff {bits bits' : List ℕ} (hbits : IsAssignment bits)
    (hbits' : IsAssignment bits') :
    s.encoding.qubo.evaluate bits < s.encoding.qubo.evaluate bits' ↔ s.Before bits bits' := by
  have hvalue : s.value bits ≤ s.values.sum := total_le_sum hbits s.values
  have hvalue' : s.value bits' ≤ s.values.sum := total_le_sum hbits' s.values
  -- a nearer load is better by more than all values together
  have hstep : ∀ {g g' : ℕ}, g < g' →
      2 * s.values.sum * g ^ 2 + 2 * s.values.sum ≤ 2 * s.values.sum * g' ^ 2 := by
    intro g g' hlt
    have hsquares : g ^ 2 + 1 ≤ g' ^ 2 := Nat.pow_lt_pow_left hlt two_ne_zero
    calc 2 * s.values.sum * g ^ 2 + 2 * s.values.sum = 2 * s.values.sum * (g ^ 2 + 1) := by ring
      _ ≤ 2 * s.values.sum * g' ^ 2 := Nat.mul_le_mul_left _ hsquares
  rw [s.evaluate_eq hbits, s.evaluate_eq hbits', sub_lt_sub_iff_right, sub_lt_sub_iff,
    ← Nat.cast_add, ← Nat.cast_add, Nat.cast_lt, Before]
  rcases Nat.eq_zero_or_pos s.values.sum with hzero | hpos
  · rw [s.gap_eq_of_sum_values hzero bits bits']
    omega
  · rcases lt_trichotomy (s.gap bits) (s.gap bits') with hlt | heq | hgt
    · have hnear := hstep hlt
      omega
    · rw [heq]
      omega
    · have hfar := hstep hgt
      omega

theorem isMinimiser_iff (bits : List ℕ) : s.encoding.qubo.IsMinimiser bits ↔
    s.encoding.qubo.Assigns bits ∧
      ∀ bits', s.encoding.qubo.Assigns bits' → ¬ s.Before bits' bits := by
  constructor
  · intro h
    refine ⟨h.assigns, fun bits' hbits' => ?_⟩
    rw [← s.evaluate_lt_iff hbits'.binary h.assigns.binary]
    exact not_lt.2 (h.le bits' hbits')
  · rintro ⟨hbits, hnone⟩
    refine ⟨hbits, fun bits' hbits' => not_lt.1 ?_⟩
    rw [s.evaluate_lt_iff hbits'.binary hbits.binary]
    exact hnone bits' hbits'

/-- **Packings of least energy.** They are the ones with a load nearest to the capacity, from below or
from above, and among these with the greatest value. So all of them fit if and only if every packing
that does not fit has a packing before it that does, as it is where some packing fills the sack
exactly. -/
theorem isMinimiser_nearest :
    (∀ bits, s.encoding.qubo.IsMinimiser bits ↔ s.encoding.qubo.Assigns bits ∧
      ∀ bits', s.encoding.qubo.Assigns bits' → s.gap bits < s.gap bits' ∨
        s.gap bits = s.gap bits' ∧ s.value bits' ≤ s.value bits) ∧
    ((∀ bits, s.encoding.qubo.IsMinimiser bits → s.Fits bits) ↔
      ∀ bits, s.encoding.qubo.Assigns bits → ¬ s.Fits bits →
        ∃ bits', s.encoding.qubo.Assigns bits' ∧ s.Fits bits' ∧ s.Before bits' bits) ∧
    ((∃ bits, s.encoding.qubo.Assigns bits ∧ s.load bits = s.capacity) →
      ∀ bits, s.encoding.qubo.IsMinimiser bits → s.load bits = s.capacity) := by
  refine ⟨fun bits => ?_, ⟨fun hfits bits hbits hover => ?_, fun hbeaten bits hleast => ?_⟩, ?_⟩
  · rw [s.isMinimiser_iff]
    refine and_congr_right fun _ => forall₂_congr fun bits' _ => ?_
    rw [Before]
    omega
  · -- a minimiser fits, and what does not fit is no minimiser
    obtain ⟨best, hbest⟩ := exists_isMinimiser s.encoding.qubo
    refine ⟨best, hbest.assigns, hfits best hbest, ?_⟩
    rw [← s.evaluate_lt_iff hbest.assigns.binary hbits.binary]
    refine lt_of_le_of_ne (hbest.le bits hbits) fun heq => hover (hfits bits ⟨hbits, ?_⟩)
    exact fun bits' hbits' => heq ▸ hbest.le bits' hbits'
  · by_contra hover
    obtain ⟨bits', hbits', -, hbefore⟩ := hbeaten bits hleast.assigns hover
    exact ((s.isMinimiser_iff bits).1 hleast).2 bits' hbits' hbefore
  · rintro ⟨full, hfull, hload⟩ bits hleast
    have hnone := ((s.isMinimiser_iff bits).1 hleast).2 full hfull
    have hgap : s.gap full = 0 := by simp [gap, hload]
    rw [Before, hgap] at hnone
    have hzero : s.gap bits = 0 := by omega
    have hequal : (s.load bits : ℤ) - s.capacity = 0 := Int.natAbs_eq_zero.1 hzero
    omega

/-- Three items of which the first two fill the sack. -/
def filled : Sack := ⟨[2, 3, 4], [3, 4, 5], 5, rfl, by decide⟩

theorem isMinimiser_nearest_filled : filled.encoding.qubo.IsMinimiser [1, 1, 0] ∧
    ∀ bits, filled.encoding.qubo.IsMinimiser bits → filled.load bits = 5 := by
  obtain ⟨hleast, -, hfull⟩ := filled.isMinimiser_nearest
  have hwidth : filled.encoding.qubo.width = 3 := filled.width_qubo
  have hassigns : filled.encoding.qubo.Assigns [1, 1, 0] := ⟨hwidth.symm, by decide⟩
  refine ⟨(hleast _).2 ⟨hassigns, fun bits' hbits' => ?_⟩, hfull ⟨[1, 1, 0], hassigns, by decide⟩⟩
  obtain ⟨x, hx, rfl⟩ := hbits'.exists_index
  rw [hwidth] at hx ⊢
  have hexact : filled.gap [1, 1, 0] = 0 := by decide
  have hothers : ∀ x < 2 ^ 3, filled.gap (Solution.bitsOfIndex x 3) = 0 →
      filled.value (Solution.bitsOfIndex x 3) ≤ filled.value [1, 1, 0] := by decide
  have hvalue := hothers x hx
  omega

/-- One item that is too heavy by less than it weighs. -/
def heavy : Sack := ⟨[3], [1], 2, rfl, by decide⟩

/-- The item is packed at least energy although it does not fit. -/
theorem not_fits_heavy : heavy.encoding.qubo.IsMinimiser [1] ∧ ¬ heavy.Fits [1] := by
  have hwidth : heavy.encoding.qubo.width = 1 := heavy.width_qubo
  refine ⟨(heavy.isMinimiser_iff [1]).2 ⟨⟨hwidth.symm, by decide⟩, fun bits' hbits' => ?_⟩, by decide⟩
  obtain ⟨x, hx, rfl⟩ := hbits'.exists_index
  rw [hwidth] at hx ⊢
  have hnone : ∀ x < 2, ¬ heavy.Before (Solution.bitsOfIndex x 1) [1] := by decide
  exact hnone x hx

end Sack

end QuantumWorkbench
