import QuantumWorkbench.Gate.Adjoint
import QuantumWorkbench.Gate.Commutation
import QuantumWorkbench.Proofs.Gate.Construction
import Mathlib.Data.List.Basic

/-!
# How gates are compared

What it means that two gates pass the commutation test or the inverse test: on which qubits they
are, of which kinds, and by which angle a pair of rotations that passes for inverse still turns.
-/

namespace QuantumWorkbench.Gate

variable {α : Type} [Scalar α]

/-! ## Commuting gates -/

/-- The three ways to pass the commutation test. -/
theorem commutes_cases {a b : Gate α} (h : a.commutes b = true) :
    a.qubits.Disjoint b.qubits ∨ (a.kind = b.kind ∧ a.qubits = b.qubits) ∨
      ∃ axis, a.kind.axis = some axis ∧ b.kind.axis = some axis ∧ a.qubits = b.qubits := by
  unfold commutes at h
  split at h
  · next hshares =>
    -- no shared qubit
    apply Or.inl
    intro q hqa hqb
    simp only [sharesQubit, Bool.not_eq_true', List.any_eq_false] at hshares
    exact hshares q hqa (List.contains_iff_mem.2 hqb)
  · split at h
    · next hsame =>
      simp only [Bool.and_eq_true, decide_eq_true_eq, beq_iff_eq] at hsame
      exact Or.inr (Or.inl hsame)
    · -- what remains is a common axis
      simp only [Bool.and_eq_true, beq_iff_eq, sameAxis] at h
      obtain ⟨⟨-, hq⟩, haxis⟩ := h
      cases hax : a.kind.axis with
      | none => simp [hax] at haxis
      | some axis =>
        cases hbx : b.kind.axis with
        | none => simp [hax, hbx] at haxis
        | some axis' =>
          simp only [hax, hbx, decide_eq_true_eq] at haxis
          exact Or.inr (Or.inr ⟨axis, rfl, haxis ▸ rfl, hq⟩)

/-- Commuting gates of different widths share no qubit. -/
theorem disjoint_of_commutes {a b : Gate α} (h : a.commutes b = true) (hne : a.width ≠ b.width) :
    a.qubits.Disjoint b.qubits := by
  rcases commutes_cases h with hdisjoint | ⟨-, hq⟩ | ⟨-, -, -, hq⟩
  · exact hdisjoint
  · exact absurd (congrArg List.length hq) hne
  · exact absurd (congrArg List.length hq) hne

/-! ## Inverse gates -/

theorem angle_getD (g : Gate α) : g.angle.getD 0 = g.kind.angleIn g.parameters := by
  rw [angle, GateKind.angleIn]
  cases g.kind.angleKey <;> rfl

/-- The angle by which two gates turn in total. -/
def turnSum (a b : Gate α) : α := a.angle.getD 0 + b.angle.getD 0

/-- The two ways to pass the inverse test. -/
theorem isInverseOf_cases {a b : Gate α} (h : a.isInverseOf b = true) :
    a.qubits = b.qubits ∧
      ((a.kind.isRotation = true ∧ b.kind = a.kind ∧
          Scalar.abs (turnSum a b) < (Scalar.tolerance : α)) ∨
        (a.kind.isRotation = false ∧ a.kind.adjoint = some b.kind)) := by
  unfold isInverseOf at h
  simp only [Bool.and_eq_true, beq_iff_eq] at h
  obtain ⟨hq, h⟩ := h
  refine ⟨hq, ?_⟩
  split at h
  · next hself =>
    simp only [decide_eq_true_eq] at hself
    obtain ⟨hkind, hself⟩ := hself
    -- a self-inverse kind is its own adjoint, and no rotation
    refine Or.inr ?_
    rw [← hkind]
    cases hk : a.kind <;> simp [hk, GateKind.isSelfInverse] at hself <;> exact ⟨rfl, rfl⟩
  · split at h
    · next hrot =>
      simp only [decide_eq_true_eq] at hrot
      exact Or.inl ⟨hrot.1, hrot.2.symm, of_decide_eq_true h⟩
    · -- the phase gates and their daggers, in both orders
      refine Or.inr ?_
      split at h
      · next ha hb => rw [ha, hb]; exact ⟨rfl, rfl⟩
      · next ha hb => rw [ha, hb]; exact ⟨rfl, rfl⟩
      · next ha hb => rw [ha, hb]; exact ⟨rfl, rfl⟩
      · next ha hb => rw [ha, hb]; exact ⟨rfl, rfl⟩
      · cases h

/-- Only gates from the catalog have an inverse by the test. -/
theorem ne_custom_of_isInverseOf {a b : Gate α} (h : a.isInverseOf b = true) :
    a.kind ≠ .custom := by
  obtain ⟨-, ⟨hr, -, -⟩ | ⟨-, hadjoint⟩⟩ := isInverseOf_cases h
  · exact GateKind.ne_custom_of_isRotation hr
  · exact GateKind.ne_custom_of_adjoint hadjoint

end QuantumWorkbench.Gate
