import Mathlib
import QuantumWorkbench.Proofs.Problem.Objective
import QuantumWorkbench.Proofs.Qubo.Spins

/-!
# Spins and bits of a cut

The spin model of a cut problem is filled from the edges and not from the quadratic objective: it
has a coupling for each pair of ends and no fields. A cut edge has the product `-1` of its spins, any
other edge the product `1`, so twice the energy falls short of the weight of the cut by half the
weight of all edges, however the edges repeat.
-/

namespace QuantumWorkbench

open Qubo SpinModel

namespace SpinModel

/-! ## Filling and widening -/

theorem energyOf_addCouplings (s : ℕ → ℝ) (m : SpinModel ℝ) (terms : List ((ℕ × ℕ) × ℝ)) :
    (m.addCouplings terms).energyOf s =
      m.energyOf s + (terms.map fun t => t.2 * (s t.1.1 * s t.1.2)).sum := by
  rw [addCouplings_eq_foldl]
  induction terms generalizing m with
  | nil => simp
  | cons t terms ih =>
    rw [List.foldl_cons, ih, energyOf_addCoupling, List.map_cons, List.sum_cons, add_assoc]

@[simp] theorem spins_addCouplings (m : SpinModel ℝ) (terms : List ((ℕ × ℕ) × ℝ)) :
    (m.addCouplings terms).spins = m.spins := rfl

@[simp] theorem spins_resize {α : Type} [Scalar α] (m : SpinModel α) (n : ℕ) :
    (m.resize n).spins = n := by
  simp only [spins, resize, Array.size_append, Array.take_eq_extract, Array.size_extract,
    Array.size_replicate]
  omega

/-- Further spins have no field. -/
theorem energyOf_resize (s : ℕ → ℝ) {m : SpinModel ℝ} {n : ℕ} (h : m.spins ≤ n) :
    (m.resize n).energyOf s = m.energyOf s := by
  have hfield (i : ℕ) : (m.resize n).fields.getD i 0 = m.fields.getD i 0 := by
    have htake : m.fields.take n = m.fields := by
      rw [Array.take_eq_extract, Array.extract_eq_self_of_le h]
    rw [resize, htake, Array.getD_eq_getD_getElem?, Array.getD_eq_getD_getElem?,
      Array.getElem?_append]
    by_cases hi : i < m.fields.size
    · rw [if_pos hi]
    · rw [if_neg hi, Array.getElem?_eq_none (Nat.le_of_not_lt hi), Array.getElem?_replicate]
      split <;> rfl
  have hfields : ∑ i ∈ Finset.range n, m.fields.getD i 0 * s i =
      ∑ i ∈ Finset.range m.spins, m.fields.getD i 0 * s i := by
    refine (Finset.sum_subset (Finset.range_subset_range.2 h) fun i _ hi => ?_).symm
    have hbeyond : m.fields.size ≤ i := Nat.le_of_not_lt fun hlt => hi (Finset.mem_range.2 hlt)
    rw [Array.getD_eq_getD_getElem?, Array.getElem?_eq_none hbeyond, Option.getD_none, zero_mul]
  rw [energyOf, energyOf, spins_resize]
  simp only [hfield, hfields]
  rfl

end SpinModel

namespace Encoding

/-! ## Weights of cuts -/

/-- One edge, in terms of its spins and of its bits. -/
theorem cutCoupling_energy {bits : List ℕ} (hbits : IsAssignment bits) (s : ℕ → ℝ)
    {e : WeightedEdge ℝ} (hu : s e.u = 1 - 2 * bitAt bits e.u)
    (hv : s e.v = 1 - 2 * bitAt bits e.v) :
    2 * (cutCoupling * e.weight *
        (s (Qubo.ordered e.u e.v).1 * s (Qubo.ordered e.u e.v).2)) + e.weight / 2 =
      if bitAt bits e.u = bitAt bits e.v then 0 else e.weight := by
  have hordered : s (Qubo.ordered e.u e.v).1 * s (Qubo.ordered e.u e.v).2 = s e.u * s e.v := by
    rw [Qubo.ordered]
    split
    · rfl
    · exact mul_comm _ _
  have hbu := hbits.bitAt_lt e.u
  have hbv := hbits.bitAt_lt e.v
  rw [hordered, hu, hv, cutCoupling, Scalar.num_real]
  -- equal bits have the product one, different bits its negative
  interval_cases bitAt bits e.u <;> interval_cases bitAt bits e.v <;> norm_num <;> ring

/-- **The spin model of a cut problem ranks assignments as its objective does.** It has as many spins
as the objective has variables, and on every assignment of all variables twice its energy and half
the weight of all edges make the value of the objective. An assignment is a table in memory, so every
end that it reaches is an index with a next one. -/
theorem energy_maxCut (vertices : ℕ) (edges : List (WeightedEdge ℝ)) :
    ∃ m, (maxCut vertices edges).spins = some m ∧
      m.spins = (maxCut vertices edges).qubo.width ∧
      ∀ bits, IsAssignment bits → Storage.holdsBytes bits.length = true →
        (maxCut vertices edges).qubo.width ≤ bits.length →
        2 * m.energy (ofBits bits) + (edges.map (·.weight)).sum / 2 =
          (maxCut vertices edges).qubo.evaluate bits := by
  refine ⟨_, rfl, spins_resize _ _, fun bits hbits hstorage hwidth => ?_⟩
  have hlimit : bits.length < Index.limit - 1 := Storage.lt_of_holds one_pos hstorage
  have hwiden : vertices ≤ (Qubo.ofTerms vertices (edges.flatMap cutTerms)).width :=
    declared_le_width (Qubo.ofTerms vertices (edges.flatMap cutTerms))
  -- both ends of an edge are variables of the objective, so they have spins
  have hends : ∀ e ∈ edges, e.u < bits.length ∧ e.v < bits.length := by
    intro e he
    have hterm : (e.u, e.v, -Scalar.two * e.weight) ∈ edges.flatMap cutTerms :=
      List.mem_flatMap.2 ⟨e, he, by simp [cutTerms]⟩
    exact lt_of_width_ofTerms_le hwidth hlimit hterm
  have hhalves : (edges.map (·.weight)).sum / 2 = (edges.map fun e => e.weight / 2).sum := by
    simp only [div_eq_mul_inv, List.sum_map_mul_right]
  rw [energy_eq, energyOf_resize _ (by simpa using hwiden), energyOf_addCouplings, energyOf_blank,
    zero_add, List.map_map, evaluate_maxCut hbits, ProblemData.cutWeight, hhalves,
    ← List.sum_map_mul_left, ← List.sum_map_add]
  refine congrArg List.sum (List.map_congr_left fun e he => ?_)
  obtain ⟨hu, hv⟩ := hends e he
  exact cutCoupling_energy hbits (fun k => spinValue ((ofBits bits).getD k 0))
    (spinValue_ofBits hbits hu) (spinValue_ofBits hbits hv)

/-- A loop, edges between the same ends in both directions, and an edge of negative weight to an end
beyond one declared vertex. -/
noncomputable def tangledEdges : List (WeightedEdge ℝ) :=
  [⟨0, 0, 2⟩, ⟨0, 1, 1⟩, ⟨1, 0, 2⟩, ⟨1, 2, -1⟩]

theorem energy_maxCut_tangled :
    ∃ m, (maxCut 1 tangledEdges).spins = some m ∧ m.spins = 3 ∧
      2 * m.energy (ofBits [0, 1, 0]) + 4 / 2 = 2 := by
  have hbits : IsAssignment [0, 1, 0] := by decide
  have hwidth : (maxCut 1 tangledEdges).qubo.width = 3 := by
    simp only [maxCut, ofQubo, ofTerms, addTerms_eq_foldl]
    rfl
  have htotal : (tangledEdges.map (·.weight)).sum = 4 := by
    norm_num [tangledEdges]
  have hcut : ProblemData.cutWeight [0, 1, 0] tangledEdges = 2 := by
    norm_num [ProblemData.cutWeight, tangledEdges, bitAt]
  obtain ⟨m, hm, hspins, henergy⟩ := energy_maxCut 1 tangledEdges
  have hvalue := henergy [0, 1, 0] hbits (by decide) (by rw [hwidth]; decide)
  rw [evaluate_maxCut hbits, htotal, hcut] at hvalue
  exact ⟨m, hm, hspins.trans hwidth, hvalue⟩

end Encoding

end QuantumWorkbench
