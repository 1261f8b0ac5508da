import Mathlib
import QuantumWorkbench.Proofs.Problem.Objective
import QuantumWorkbench.Proofs.Qubo.Assignment

/-!
# Covers of least energy

The objective of a cover problem charges an edge when exactly one of its ends is chosen. An edge
without chosen ends is not charged, so the choice of no vertex at all costs nothing, and it alone
does. It is a cover only where there are no edges.
-/

namespace QuantumWorkbench

open Qubo

namespace ProblemData

/-! ## Covers -/

/-- The chosen among the first so many vertices. -/
def chosenVertices (bits : List ℕ) (vertices : ℕ) : Finset ℕ :=
  (Finset.range vertices).filter fun v => bitAt bits v = 1

/-- A cover has a chosen end on every edge. -/
def IsCover (bits : List ℕ) (edges : List (ℕ × ℕ)) : Prop :=
  ∀ e ∈ edges, bitAt bits e.1 = 1 ∨ bitAt bits e.2 = 1

/-- A cover with as few vertices as any. -/
structure IsSmallestCover (bits : List ℕ) (vertices : ℕ) (edges : List (ℕ × ℕ)) : Prop where
  cover : IsCover bits edges
  card_le : ∀ bits', IsAssignment bits' → bits'.length = vertices → IsCover bits' edges →
    (chosenVertices bits vertices).card ≤ (chosenVertices bits' vertices).card

/-- The choice of no vertex. -/
def noVertices (vertices : ℕ) : List ℕ := List.replicate vertices 0

theorem isAssignment_noVertices (vertices : ℕ) : IsAssignment (noVertices vertices) := fun b hb => by
  rw [List.eq_of_mem_replicate hb]
  exact two_pos

theorem bitAt_noVertices (vertices k : ℕ) : bitAt (noVertices vertices) k = 0 := by
  rw [bitAt, noVertices, List.getD_eq_getElem?_getD, List.getElem?_replicate]
  split <;> rfl

theorem chosenVertices_noVertices (vertices : ℕ) :
    chosenVertices (noVertices vertices) vertices = ∅ := by
  simp [chosenVertices, bitAt_noVertices]

/-- The choice of no vertex is a cover only without edges. -/
theorem isCover_noVertices_iff {vertices : ℕ} {edges : List (ℕ × ℕ)} :
    IsCover (noVertices vertices) edges ↔ edges = [] := by
  simp [IsCover, bitAt_noVertices, List.eq_nil_iff_forall_not_mem]

/-- An assignment without chosen vertices is the choice of no vertex. -/
theorem eq_noVertices {bits : List ℕ} (hbits : IsAssignment bits)
    (h : chosenVertices bits bits.length = ∅) : bits = noVertices bits.length := by
  refine List.eq_replicate_iff.2 ⟨rfl, fun b hb => ?_⟩
  obtain ⟨k, hk, rfl⟩ := List.mem_iff_getElem.1 hb
  have hnone : ¬ bitAt bits k = 1 := Finset.filter_eq_empty_iff.1 h (Finset.mem_range.2 hk)
  have hlt := hbits.bitAt_lt k
  rw [bitAt, List.getD_eq_getElem bits 0 hk] at hnone hlt
  omega

end ProblemData

namespace Encoding

open ProblemData

variable {vertices : ℕ} {edges : List (ℕ × ℕ)}

/-- A cover problem has a variable for each vertex. -/
theorem width_vertexCover (hedges : ∀ e ∈ edges, e.1 < vertices ∧ e.2 < vertices) :
    (vertexCover vertices edges : Encoding ℝ).qubo.width = vertices := by
  have huniform : (Qubo.uniform vertices (1 : ℝ)).IsDeclared := by
    rw [uniform_eq_ofTerms]
    refine isDeclared_ofTerms fun t ht => ?_
    obtain ⟨v, hv, rfl⟩ := List.mem_map.1 ht
    exact ⟨List.mem_range.1 hv, List.mem_range.1 hv⟩
  refine (huniform.addTerms fun t ht => ?_).width_eq
  obtain ⟨e, he, ht⟩ := List.mem_flatMap.1 ht
  obtain ⟨hu, hv⟩ := hedges e he
  simp only [List.mem_cons, List.not_mem_nil, or_false] at ht
  rcases ht with rfl | rfl | rfl
  · exact ⟨hu, hu⟩
  · exact ⟨hv, hv⟩
  · exact ⟨hu, hv⟩

/-- What is chosen costs at least its number. -/
theorem card_le_evaluate_vertexCover {bits : List ℕ} (hbits : IsAssignment bits) :
    ((chosenVertices bits vertices).card : ℝ) ≤
      (vertexCover vertices edges : Encoding ℝ).qubo.evaluate bits := by
  rw [evaluate_vertexCover hbits, sum_bits hbits.bitAt_lt]
  exact le_add_of_nonneg_right (by positivity)

theorem evaluate_vertexCover_noVertices :
    (vertexCover vertices edges : Encoding ℝ).qubo.evaluate (noVertices vertices) = 0 := by
  have hbits := isAssignment_noVertices vertices
  have hexposed : exposed (noVertices vertices) edges = 0 := by
    simp [exposed, bitAt_noVertices]
  rw [evaluate_vertexCover hbits, sum_bits hbits.bitAt_lt, hexposed]
  have hnone := chosenVertices_noVertices vertices
  rw [chosenVertices] at hnone
  simp [hnone]

/-- The choice of no vertex is the only one of least energy. -/
theorem isMinimiser_vertexCover_iff (hedges : ∀ e ∈ edges, e.1 < vertices ∧ e.2 < vertices)
    (bits : List ℕ) : (vertexCover vertices edges : Encoding ℝ).qubo.IsMinimiser bits ↔
      bits = noVertices vertices := by
  have hwidth := width_vertexCover hedges
  have hassigns : (vertexCover vertices edges : Encoding ℝ).qubo.Assigns (noVertices vertices) :=
    ⟨by rw [hwidth, noVertices, List.length_replicate], isAssignment_noVertices vertices⟩
  constructor
  · intro h
    have hbits := h.assigns.binary
    have hlength : bits.length = vertices := h.assigns.length.trans hwidth
    -- a minimiser is worth at most the empty choice, and at least the number of its vertices
    have hle : ((chosenVertices bits vertices).card : ℝ) ≤ 0 :=
      calc ((chosenVertices bits vertices).card : ℝ)
          ≤ (vertexCover vertices edges : Encoding ℝ).qubo.evaluate bits :=
            card_le_evaluate_vertexCover hbits
        _ ≤ (vertexCover vertices edges : Encoding ℝ).qubo.evaluate (noVertices vertices) :=
            h.le _ hassigns
        _ = 0 := evaluate_vertexCover_noVertices
    have hcard : (chosenVertices bits vertices).card = 0 := by exact_mod_cast hle.antisymm (by simp)
    rw [← hlength] at hcard ⊢
    exact eq_noVertices hbits (Finset.card_eq_zero.1 hcard)
  · rintro rfl
    refine ⟨hassigns, fun bits' hbits' => ?_⟩
    rw [evaluate_vertexCover_noVertices]
    exact (Nat.cast_nonneg _).trans (card_le_evaluate_vertexCover hbits'.binary)

/-- **Covers of least energy.** Whatever the edges of a graph, the choice of no vertex is the one
assignment of least energy, and its energy is zero. So what is least is a smallest cover if and only
if there is nothing to cover. -/
theorem isMinimiser_noVertices (hedges : ∀ e ∈ edges, e.1 < vertices ∧ e.2 < vertices) :
    (∀ bits, (vertexCover vertices edges : Encoding ℝ).qubo.IsMinimiser bits ↔
      bits = noVertices vertices) ∧
    (vertexCover vertices edges : Encoding ℝ).qubo.evaluate (noVertices vertices) = 0 ∧
    ((∀ bits, (vertexCover vertices edges : Encoding ℝ).qubo.IsMinimiser bits →
      IsSmallestCover bits vertices edges) ↔ edges = []) := by
  have hleast := isMinimiser_vertexCover_iff hedges
  refine ⟨hleast, evaluate_vertexCover_noVertices, ⟨fun h => ?_, ?_⟩⟩
  · exact isCover_noVertices_iff.1 (h _ ((hleast _).2 rfl)).cover
  · rintro rfl bits hbits
    rw [(hleast bits).1 hbits]
    refine ⟨isCover_noVertices_iff.2 rfl, fun bits' _ _ _ => ?_⟩
    rw [chosenVertices_noVertices]
    exact Nat.zero_le _

/-- A path of three vertices. -/
theorem isMinimiser_noVertices_path : (∀ e ∈ [(0, 1), (1, 2)], e.1 < 3 ∧ e.2 < 3) ∧
    (vertexCover 3 [(0, 1), (1, 2)] : Encoding ℝ).qubo.IsMinimiser [0, 0, 0] ∧
    ¬ (vertexCover 3 [(0, 1), (1, 2)] : Encoding ℝ).qubo.IsMinimiser [0, 1, 0] := by
  have hedges : ∀ e ∈ [(0, 1), (1, 2)], e.1 < 3 ∧ e.2 < 3 := by decide
  obtain ⟨hleast, -, -⟩ := isMinimiser_noVertices hedges
  exact ⟨hedges, (hleast _).2 rfl, fun h => absurd ((hleast _).1 h) (by decide)⟩

/-- The one edge of a graph is not covered at least energy. -/
theorem not_isCover_edge :
    (vertexCover 2 [(0, 1)] : Encoding ℝ).qubo.IsMinimiser [0, 0] ∧ ¬ IsCover [0, 0] [(0, 1)] :=
  ⟨(isMinimiser_vertexCover_iff (by decide) _).2 rfl, fun h => by simp [IsCover, bitAt] at h⟩

end Encoding

end QuantumWorkbench
