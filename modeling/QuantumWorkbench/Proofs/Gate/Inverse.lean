import Mathlib
import QuantumWorkbench.Proofs.Gate.Operator

/-!
# Undoing gates

The inverse of a gate undoes it exactly: a rotation turns back by its own angle, a gate with an
adjoint in the catalog meets that, and any other unitary gate meets the conjugate transpose of its
matrix. So the inverse gates in reverse order undo a list.
-/

namespace QuantumWorkbench

open Gate Register
open scoped Matrix

theorem SquareMatrix.toMatrix_dagger {m : SquareMatrix ℝ} {d : ℕ} (hm : m.dim = d) :
    m.dagger.toMatrix d = (m.toMatrix d)ᴴ := by
  subst hm
  ext i j
  rw [toMatrix, dagger, entry_ofFn _ i.isLt j.isLt]
  rfl

namespace Gate

/-! ## One gate -/

theorem qubits_inverse {α : Type} [Scalar α] (g : Gate α) : g.inverse.qubits = g.qubits := by
  unfold inverse
  split
  · rfl
  · split <;> rfl

theorem BuiltIn.inverse {α : Type} [Scalar α] {width : ℕ} {g : Gate α} (hg : g.BuiltIn width) :
    g.inverse.BuiltIn width := ⟨hg.built.inverse, by rw [qubits_inverse]; exact hg.inside⟩

/-- A rotation is undone by the turn back. -/
theorem operator_inverse_of_rotation {g : Gate ℝ} (hg : g.Built) (hr : g.isRotation = true) :
    g.inverse.operator ∘ₗ g.operator = LinearMap.id := by
  obtain ⟨key, hkey⟩ := Option.isSome_iff_exists.1 hr
  have hinverse : g.inverse = { g with
      parameters := g.parameters.insert key (-(g.angle.getD 0)), ownMatrix := none } := by
    rw [inverse, hkey]
  have hkind : g.inverse.kind = g.kind := by rw [hinverse]
  have hangle : g.inverse.angle = some (-(g.angle.getD 0)) := by
    rw [Gate.angle, hkind, hkey, hinverse]
    simp only [Option.map_some, SortedMap.get?_insert_self, Option.getD_some]
  obtain ⟨axis, haxis, hturn⟩ := operator_rotation hg.wellFormed hr
  obtain ⟨axis', haxis', hback⟩ := operator_rotation hg.inverse.wellFormed
    (by rw [isRotation, hkind]; exact hr)
  rw [hkind, haxis] at haxis'
  cases haxis'
  rw [hback, hturn, qubits_inverse, hangle, turnAt_comp, Option.getD_some, neg_add_cancel,
    turnAt_zero]

/-- A gate without an adjoint in the catalog is undone by the conjugate transpose. -/
theorem operator_inverse_of_dagger {g : Gate ℝ} (hg : g.WellFormed) (hlen : g.width < 64)
    (hu : g.IsUnitary) (hkey : g.kind.angleKey = none) (hadjoint : g.kind.adjoint = none) :
    g.inverse.operator ∘ₗ g.operator = LinearMap.id := by
  have hinverse : g.inverse = { g with kind := .custom, ownMatrix := some g.matrix.dagger } := by
    rw [inverse, hkey, hadjoint]
  have hmatrix : g.inverse.matrix = g.matrix.dagger := by rw [hinverse, Gate.matrix]
  have hunitary : (g.matrix.toMatrix (2 ^ g.qubits.length))ᴴ *
      g.matrix.toMatrix (2 ^ g.qubits.length) = 1 := Matrix.mem_unitaryGroup_iff'.1 hu
  rw [operator_eq (qubits_inverse g), operator_eq (g := g) rfl, hmatrix,
    SquareMatrix.toMatrix_dagger (hg.dim_matrix_eq hlen), ← applyAt_mul hg.nodup, hunitary,
    applyAt_one]

/-- **The inverse of a gate undoes it** exactly, whatever the gate. -/
theorem operator_inverse {g : Gate ℝ} (hg : g.Built) (hlen : g.width < 64) (hu : g.IsUnitary) :
    g.inverse.operator ∘ₗ g.operator = LinearMap.id := by
  by_cases hr : g.isRotation = true
  · exact operator_inverse_of_rotation hg hr
  · have hkey : g.kind.angleKey = none := Option.not_isSome_iff_eq_none.1 hr
    cases hadjoint : g.kind.adjoint with
    | none => exact operator_inverse_of_dagger hg.wellFormed hlen hu hkey hadjoint
    | some kind =>
      have hinverse : g.inverse = { g with kind, ownMatrix := none } := by
        rw [inverse, hkey, hadjoint]
      exact operator_adjoint_pair hg.wellFormed hg.inverse.wellFormed hlen
        (Bool.not_eq_true _ ▸ hr) (by rw [hadjoint, hinverse]) (qubits_inverse g).symm

/-- The inverse of a gate is undone by the gate. -/
theorem operator_comp_inverse {g : Gate ℝ} (hg : g.Built) (hlen : g.width < 64)
    (hu : g.IsUnitary) : g.operator ∘ₗ g.inverse.operator = LinearMap.id := by
  have h := operator_inverse hg hlen hu
  rw [operator_eq (qubits_inverse g), operator_eq (g := g) rfl] at h ⊢
  exact applyAt_comp_eq_id_comm hg.wellFormed.nodup h

/-! ## Lists of gates -/

/-- Gates that undo others one by one undo them all in reverse order. -/
theorem operatorAll_reverse_comp {gs hs : List (Gate ℝ)}
    (h : List.Forall₂ (fun g h => h.operator ∘ₗ g.operator = LinearMap.id) gs hs) :
    operatorAll hs.reverse ∘ₗ operatorAll gs = LinearMap.id := by
  induction h with
  | nil => rfl
  | @cons g h gs hs hpair _ ih =>
    -- the last gate of one list meets the first gate of the other, with nothing left between
    calc operatorAll (h :: hs).reverse ∘ₗ operatorAll (g :: gs)
        = h.operator ∘ₗ (operatorAll hs.reverse ∘ₗ operatorAll gs) ∘ₗ g.operator := by
          rw [List.reverse_cons, operatorAll_append, operatorAll_cons, LinearMap.comp_assoc,
            LinearMap.comp_assoc]
          rfl
      _ = LinearMap.id := by rw [ih, LinearMap.id_comp, hpair]

section

variable {gs : List (Gate ℝ)} (hgs : ∀ g ∈ gs, g.Built ∧ g.width < 64 ∧ g.IsUnitary)
include hgs

/-- **The inverse gates in reverse order undo a list.** -/
theorem operatorAll_inverse :
    operatorAll (gs.reverse.map Gate.inverse) ∘ₗ operatorAll gs = LinearMap.id := by
  rw [List.map_reverse]
  apply operatorAll_reverse_comp
  apply List.forall₂_map_right_iff.2
  apply List.forall₂_same.2
  intro g hg
  obtain ⟨hbuilt, hlen, hu⟩ := hgs g hg
  exact operator_inverse hbuilt hlen hu

/-- **A list undoes its inverse gates in reverse order.** -/
theorem operatorAll_comp_inverse :
    operatorAll gs ∘ₗ operatorAll (gs.reverse.map Gate.inverse) = LinearMap.id := by
  have hback : operatorAll gs.reverse.reverse ∘ₗ operatorAll (gs.reverse.map Gate.inverse) =
      LinearMap.id := by
    apply operatorAll_reverse_comp
    apply List.forall₂_map_left_iff.2
    apply List.forall₂_same.2
    intro g hg
    obtain ⟨hbuilt, hlen, hu⟩ := hgs g (List.mem_reverse.1 hg)
    exact operator_comp_inverse hbuilt hlen hu
  rwa [List.reverse_reverse] at hback

end

end Gate

end QuantumWorkbench
