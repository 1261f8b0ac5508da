import Mathlib
import QuantumWorkbench.Proofs.Gate.ClosedForm
import QuantumWorkbench.Proofs.Gate.Comparison
import QuantumWorkbench.Proofs.Register.Action

/-!
# Gates as operators

What single gates and lists of gates do to a wave. Gates that pass the commutation test commute,
one of them being from the catalog; gates that pass the inverse test undo each other, up to an
operator near the identity where they are rotations; and a rotation by an angle moves a wave by at
most half the angle times its length.
-/

namespace QuantumWorkbench.Gate

open Register
open scoped Matrix

/-! ## Operators -/

/-- What a gate does to a wave. -/
noncomputable def operator (g : Gate ℝ) : Wave →ₗ[ℂ] Wave := applyAt g.qubits (localMatrix g)

/-- What a list of gates does to a wave, the first gate acting first. -/
noncomputable def operatorAll : List (Gate ℝ) → Wave →ₗ[ℂ] Wave
  | [] => LinearMap.id
  | g :: gs => operatorAll gs ∘ₗ g.operator

@[simp] theorem operatorAll_nil : operatorAll [] = LinearMap.id := rfl

@[simp] theorem operatorAll_cons (g : Gate ℝ) (gs : List (Gate ℝ)) :
    operatorAll (g :: gs) = operatorAll gs ∘ₗ g.operator := rfl

theorem operatorAll_append (gs hs : List (Gate ℝ)) :
    operatorAll (gs ++ hs) = operatorAll hs ∘ₗ operatorAll gs := by
  induction gs with
  | nil => rfl
  | cons g gs ih => rw [List.cons_append, operatorAll_cons, ih, operatorAll_cons]; rfl

theorem operator_eq {g : Gate ℝ} {qs : List ℕ} (h : g.qubits = qs) :
    g.operator = applyAt qs (g.matrix.toMatrix (2 ^ qs.length)) := by
  subst h
  rfl

/-- The matrix of a gate is unitary. -/
def IsUnitary (g : Gate ℝ) : Prop := localMatrix g ∈ Matrix.unitaryGroup _ ℂ

/-- A gate of a register that keeps lengths. -/
structure UnitaryIn (n : ℕ) (g : Gate ℝ) : Prop extends BuiltIn n g where
  unitary : g.IsUnitary

theorem norm_operator {n : ℕ} {g : Gate ℝ} (hg : g.UnitaryIn n) (ψ : Wave) :
    ‖vector n (g.operator ψ)‖ = ‖vector n ψ‖ :=
  norm_applyAt hg.built.wellFormed.nodup hg.inside hg.unitary ψ

theorem norm_operatorAll {n : ℕ} {gs : List (Gate ℝ)} (hgs : ∀ g ∈ gs, g.UnitaryIn n) (ψ : Wave) :
    ‖vector n (operatorAll gs ψ)‖ = ‖vector n ψ‖ := by
  induction gs generalizing ψ with
  | nil => rfl
  | cons g gs ih =>
    obtain ⟨hg, hgs⟩ := List.forall_mem_cons.1 hgs
    exact (ih hgs (g.operator ψ)).trans (norm_operator hg ψ)

/-! ## Matrices of constructed gates -/

section

variable {g : Gate ℝ} (hlen : g.width < 64)
include hlen

theorem WellFormed.dim_matrix_eq (hg : g.WellFormed) : g.matrix.dim = 2 ^ g.qubits.length := by
  rw [hg.dim_matrix, dimension_eq hlen]
  rfl

/-- A gate from the catalog is unitary. -/
theorem WellFormed.isUnitary (hg : g.WellFormed) (hk : g.kind ≠ .custom) : g.IsUnitary := by
  have hclosed := GateKind.toMatrix_mem_unitaryGroup hg.arity g.parameters
  rw [dimension_eq hlen] at hclosed
  rw [IsUnitary, localMatrix, hg.matrix_eq hk]
  exact hclosed

end

section

variable {n : ℕ} (hn : n < 64) {a b g : Gate ℝ}
include hn

theorem BuiltIn.width_lt (hg : g.BuiltIn n) : g.width < 64 :=
  length_lt_of_nodup hg.built.wellFormed.nodup hg.inside hn

theorem BuiltIn.dim_matrix (hg : g.BuiltIn n) : g.matrix.dim = 2 ^ g.qubits.length :=
  hg.built.wellFormed.dim_matrix_eq (hg.width_lt hn)

theorem BuiltIn.isUnitary (hg : g.BuiltIn n) (hk : g.kind ≠ .custom) : g.IsUnitary :=
  hg.built.wellFormed.isUnitary (hg.width_lt hn) hk

theorem operator_identity (hg : g.BuiltIn n) (hk : g.kind = .identity) :
    g.operator = LinearMap.id := by
  have hmatrix : g.matrix.toMatrix (2 ^ g.qubits.length) = 1 := by
    rw [hg.built.wellFormed.matrix_eq (by rw [hk]; decide), hk, ← Gate.width,
      ← dimension_eq (hg.width_lt hn)]
    exact SquareMatrix.toMatrix_identity _
  rw [operator_eq (g := g) rfl, hmatrix]
  exact applyAt_one _

/-- On constructed gates of a register a list acts as its operators do. -/
theorem wave_actAll {gs : List (Gate ℝ)} (hgs : ∀ g ∈ gs, g.BuiltIn n)
    {amplitudes : Array (Amplitude ℝ)} (hsize : amplitudes.size = 2 ^ n) :
    (actAll gs amplitudes).size = 2 ^ n ∧
      wave (actAll gs amplitudes) = operatorAll gs (wave amplitudes) := by
  induction gs generalizing amplitudes with
  | nil => exact ⟨hsize, rfl⟩
  | cons g gs ih =>
    obtain ⟨hg, hgs⟩ := List.forall_mem_cons.1 hgs
    have hact := wave_act hg.built.wellFormed.nodup hg.inside hn (hg.dim_matrix hn) hsize
    have hrest := ih hgs ((size_act g amplitudes).trans hsize)
    refine ⟨hrest.1, hrest.2.trans ?_⟩
    rw [hact]
    rfl

end

/-! ## Turns of one qubit -/

/-- The turn of one qubit about an axis by an angle. -/
noncomputable def turnAt (axis : Axis) (q : ℕ) (angle : ℝ) : Wave →ₗ[ℂ] Wave :=
  applyAt [q] (axis.turn angle)

@[simp] theorem turnAt_zero (axis : Axis) (q : ℕ) : turnAt axis q 0 = LinearMap.id := by
  rw [turnAt, Axis.turn_zero]
  exact applyAt_one [q]

theorem turnAt_comp (axis : Axis) (q : ℕ) (s t : ℝ) :
    turnAt axis q s ∘ₗ turnAt axis q t = turnAt axis q (s + t) := by
  rw [turnAt, turnAt, turnAt, ← Axis.turn_mul]
  exact (applyAt_mul (List.nodup_singleton q) _ _).symm

/-- The exponential of an operator whose square is the identity, times an angle and the imaginary
unit with a minus sign. -/
noncomputable def exponential (P : Wave →ₗ[ℂ] Wave) (angle : ℝ) : Wave →ₗ[ℂ] Wave :=
  (Real.cos angle : ℂ) • LinearMap.id - (Real.sin angle * Complex.I : ℂ) • P

theorem turnAt_eq (axis : Axis) (q : ℕ) (angle : ℝ) :
    turnAt axis q angle = exponential (applyAt [q] axis.pauli) (angle / 2) := by
  have hone : applyAt [q] (1 : Matrix (Fin 2) (Fin 2) ℂ) = LinearMap.id := applyAt_one [q]
  rw [turnAt, Axis.turn_eq, exponential, ← hone]
  refine (applyAt_sub [q] _ _).trans ?_
  exact congrArg₂ (· - ·) (applyAt_smul [q] _ _) (applyAt_smul [q] _ _)

/-- Between two operators that cancel an exponential is that of the operator between them. -/
theorem exponential_conj {A B : Wave →ₗ[ℂ] Wave} (h : B ∘ₗ A = LinearMap.id)
    (P : Wave →ₗ[ℂ] Wave) (angle : ℝ) :
    B ∘ₗ exponential P angle ∘ₗ A = exponential (B ∘ₗ P ∘ₗ A) angle := by
  rw [exponential, exponential, LinearMap.sub_comp, LinearMap.comp_sub, LinearMap.smul_comp,
    LinearMap.comp_smul, LinearMap.smul_comp, LinearMap.comp_smul, LinearMap.id_comp, h]

/-- **A turn by a small angle** moves a wave by at most half the angle times its length. -/
theorem norm_turnAt_sub_le {n q : ℕ} (hq : q < n) (axis : Axis) (t : ℝ) (ψ : Wave) :
    ‖vector n (turnAt axis q t ψ) - vector n ψ‖ ≤ |t| / 2 * ‖vector n ψ‖ := by
  have hinside : ∀ p ∈ [q], p < n := by simpa using hq
  have hsub : applyAt [q] (axis.turn t - 1 : Matrix (Fin 2) (Fin 2) ℂ) =
      turnAt axis q t - LinearMap.id :=
    (applyAt_sub [q] (axis.turn t) 1).trans (by rw [applyAt_one]; rfl)
  have hdiff : vector n (turnAt axis q t ψ) - vector n ψ =
      vector n (applyAt [q] (axis.turn t - 1 : Matrix (Fin 2) (Fin 2) ℂ) ψ) := by
    rw [hsub, LinearMap.sub_apply, map_sub]
    rfl
  have hsq := norm_sq_applyAt (List.nodup_singleton q) hinside (axis.turn_sub_one_sq t) ψ
  have hcos : 2 - 2 * Real.cos (t / 2) ≤ (|t| / 2) ^ 2 := by
    have hle := Real.one_sub_sq_div_two_le_cos (x := t / 2)
    rw [div_pow, sq_abs]
    linarith [div_pow t 2 2]
  rw [hdiff]
  refine le_of_sq_le_sq ?_ (by positivity)
  rw [hsq, mul_pow]
  exact mul_le_mul_of_nonneg_right hcos (sq_nonneg _)

/-! ## Rotations -/

/-- A rotation turns its qubit about its axis. -/
theorem operator_rotation {g : Gate ℝ} (hg : g.WellFormed) (hr : g.isRotation = true) :
    ∃ axis, g.kind.axis = some axis ∧
      g.operator = turnAt axis (g.qubits.headD 0) (g.angle.getD 0) := by
  obtain ⟨axis, haxis, hturn⟩ := GateKind.toMatrix_rotation hr g.parameters g.width
  refine ⟨axis, haxis, ?_⟩
  have hmatrix := hg.matrix_eq (GateKind.ne_custom_of_isRotation hr)
  rw [angle_getD, turnAt, ← hturn, ← hmatrix, operator_eq (hg.rotation_qubits hr)]
  rfl

/-! ## Commuting gates -/

section

variable {n : ℕ} (hn : n < 64) {a b : Gate ℝ}

theorem operator_comm_of_disjoint (h : a.qubits.Disjoint b.qubits) :
    a.operator ∘ₗ b.operator = b.operator ∘ₗ a.operator := applyAt_comm h _ _

theorem operatorAll_comm {gs : List (Gate ℝ)}
    (h : ∀ g ∈ gs, g.operator ∘ₗ a.operator = a.operator ∘ₗ g.operator) :
    operatorAll gs ∘ₗ a.operator = a.operator ∘ₗ operatorAll gs := by
  induction gs with
  | nil => rfl
  | cons g gs ih =>
    obtain ⟨hg, hgs⟩ := List.forall_mem_cons.1 h
    rw [operatorAll_cons, LinearMap.comp_assoc, hg, ← LinearMap.comp_assoc, ih hgs,
      LinearMap.comp_assoc]

/-- On the same qubits it is the matrices that have to commute. -/
theorem operator_comm_of_matrix (ha : a.qubits.Nodup) (hq : a.qubits = b.qubits)
    (h : a.matrix.toMatrix (2 ^ a.qubits.length) * b.matrix.toMatrix (2 ^ a.qubits.length) =
      b.matrix.toMatrix (2 ^ a.qubits.length) * a.matrix.toMatrix (2 ^ a.qubits.length)) :
    a.operator ∘ₗ b.operator = b.operator ∘ₗ a.operator := by
  rw [operator_eq (g := a) rfl, operator_eq hq.symm, ← applyAt_mul ha, ← applyAt_mul ha, h]

theorem operator_comm_of_axis (ha : a.WellFormed) (hb : b.WellFormed) {axis : Axis}
    (hax : a.kind.axis = some axis) (hbx : b.kind.axis = some axis) (hq : a.qubits = b.qubits) :
    a.operator ∘ₗ b.operator = b.operator ∘ₗ a.operator := by
  have hlen : 2 ^ a.qubits.length = 2 := by
    rw [show a.qubits.length = 1 from ha.arity 1 (GateKind.arity_of_axis hax), pow_one]
  refine operator_comm_of_matrix ha.nodup hq ?_
  rw [hlen, ha.matrix_eq (GateKind.ne_custom_of_axis hax),
    hb.matrix_eq (GateKind.ne_custom_of_axis hbx)]
  exact GateKind.toMatrix_comm_of_axis hax hbx _ _ _ _

theorem operator_comm_of_kind (ha : a.WellFormed) (hb : b.WellFormed) (hk : a.kind ≠ .custom)
    (hkind : a.kind = b.kind) (hq : a.qubits = b.qubits) :
    a.operator ∘ₗ b.operator = b.operator ∘ₗ a.operator := by
  by_cases hr : a.kind.isRotation = true
  · obtain ⟨axis, haxis, -⟩ := operator_rotation ha hr
    exact operator_comm_of_axis ha hb haxis (hkind ▸ haxis) hq
  · -- without an angle the kind and the number of qubits fix the matrix
    have hmatrix : a.matrix = b.matrix := by
      rw [ha.matrix_eq hk, hb.matrix_eq (hkind ▸ hk), ← hkind, width, width, hq]
      exact GateKind.unitary_congr (Bool.not_eq_true _ ▸ hr) _ _ _
    exact operator_comm_of_matrix ha.nodup hq (by rw [hmatrix])

/-- **The commutation test is sound** as soon as one of the gates is from the catalog. -/
theorem operator_comm (ha : a.WellFormed) (hb : b.WellFormed) (hk : a.kind ≠ .custom)
    (h : a.commutes b = true) : a.operator ∘ₗ b.operator = b.operator ∘ₗ a.operator := by
  rcases commutes_cases h with hdisjoint | ⟨hkind, hq⟩ | ⟨axis, hax, hbx, hq⟩
  · exact operator_comm_of_disjoint hdisjoint
  · exact operator_comm_of_kind ha hb hk hkind hq
  · exact operator_comm_of_axis ha hb hax hbx hq

/-! ## Inverse pairs -/

/-- What a pair that passes for inverse turns in total counts as zero. -/
theorem abs_turnSum_lt (h : a.isInverseOf b = true) : |turnSum a b| < Scalar.tolerance := by
  obtain ⟨-, ⟨-, -, hsmall⟩ | ⟨hr, hadjoint⟩⟩ := isInverseOf_cases h
  · exact hsmall
  · have hrb : b.kind.isRotation = false := by
      cases hk : a.kind <;>
        simp [hk, GateKind.adjoint, GateKind.isSelfInverse, GateKind.isRotation,
          GateKind.angleKey] at hadjoint hr <;> rw [← hadjoint] <;> rfl
    have hzero : ∀ {g : Gate ℝ}, g.kind.isRotation = false → g.angle.getD 0 = 0 := by
      intro g hg
      have hnone : g.kind.angleKey = none := by simpa [GateKind.isRotation] using hg
      rw [angle, hnone]
      rfl
    rw [turnSum, hzero hr, hzero hrb]
    simpa using Scalar.tolerance_pos

/-- A pair of rotations that passes for inverse turns by its sum. -/
private theorem operator_rotation_pair (ha : a.WellFormed) (hb : b.WellFormed)
    (hr : a.isRotation = true) (hkind : b.kind = a.kind) (hq : a.qubits = b.qubits) :
    ∃ axis, b.operator ∘ₗ a.operator = turnAt axis (a.qubits.headD 0) (turnSum a b) := by
  have hrb : b.isRotation = true := by rw [isRotation, hkind]; exact hr
  obtain ⟨axis, hax, hopa⟩ := operator_rotation ha hr
  obtain ⟨axis', hbx, hopb⟩ := operator_rotation hb hrb
  rw [hkind, hax] at hbx
  cases hbx
  refine ⟨axis, ?_⟩
  rw [turnSum, add_comm, ← turnAt_comp, hopa, hopb, hq]

/-- Gates of adjoint kinds on the same qubits undo each other. -/
theorem operator_adjoint_pair (ha : a.WellFormed) (hb : b.WellFormed) (hlen : a.width < 64)
    (hr : a.kind.isRotation = false) (hadjoint : a.kind.adjoint = some b.kind)
    (hq : a.qubits = b.qubits) : b.operator ∘ₗ a.operator = LinearMap.id := by
  have hcustom := GateKind.ne_custom_of_adjoint hadjoint
  have hcustom' := GateKind.ne_custom_of_adjoint (GateKind.adjoint_adjoint hadjoint)
  have hwidth : b.width = a.width := by rw [width, width, hq]
  -- the second matrix is the conjugate transpose of the first, which is unitary
  have hmatrix : b.matrix.toMatrix (2 ^ a.qubits.length) =
      (a.matrix.toMatrix (2 ^ a.qubits.length))ᴴ := by
    rw [← Gate.width, ← dimension_eq hlen, ha.matrix_eq hcustom, hb.matrix_eq hcustom', hwidth]
    exact GateKind.toMatrix_adjoint hadjoint hr ha.arity _ _
  have hunitary := Matrix.mem_unitaryGroup_iff'.1 (ha.isUnitary hlen hcustom)
  rw [operator_eq hq.symm, operator_eq (g := a) rfl, ← applyAt_mul ha.nodup, hmatrix]
  exact (congrArg (applyAt a.qubits) hunitary).trans (applyAt_one _)

include hn in
/-- **The inverse test is sound** up to the angle that is left. -/
theorem norm_inverse_sub_le (ha : a.BuiltIn n) (hb : b.BuiltIn n) (h : a.isInverseOf b = true)
    (ψ : Wave) :
    ‖vector n (b.operator (a.operator ψ)) - vector n ψ‖ ≤ |turnSum a b| / 2 * ‖vector n ψ‖ := by
  obtain ⟨hq, ⟨hr, hkind, -⟩ | ⟨hr, hadjoint⟩⟩ := isInverseOf_cases h
  · obtain ⟨axis, hturn⟩ :=
      operator_rotation_pair ha.built.wellFormed hb.built.wellFormed hr hkind hq
    have hinside : a.qubits.headD 0 < n := by
      apply ha.inside
      rw [ha.built.wellFormed.rotation_qubits hr]
      simp
    rw [← LinearMap.comp_apply b.operator, hturn]
    exact norm_turnAt_sub_le hinside axis _ ψ
  · -- nothing is left of an exact pair
    rw [← LinearMap.comp_apply b.operator, operator_adjoint_pair ha.built.wellFormed
      hb.built.wellFormed (ha.width_lt hn) hr hadjoint hq, LinearMap.id_apply, sub_self, norm_zero]
    positivity

end

end QuantumWorkbench.Gate
