import Mathlib
import QuantumWorkbench.Gate.Basic
import QuantumWorkbench.Proofs.Exact

/-!
# Closed forms over the real numbers

What the matrices of the catalog are in exact arithmetic. All of them are unitary; those about one
axis are combinations of the identity and one Pauli matrix, so they commute; rotations about an axis
multiply by adding their angles; and a rotation by a small angle is close to the identity.
-/

namespace QuantumWorkbench

open scoped Matrix
open Complex (I)

/-! ## Turns about an axis -/

namespace Axis

/-- The Pauli matrix of an axis. -/
def pauli : Axis → Matrix (Fin 2) (Fin 2) ℂ
  | x => !![0, 1; 1, 0]
  | y => !![0, -I; I, 0]
  | z => !![1, 0; 0, -1]

@[simp] theorem pauli_mul_self (a : Axis) : a.pauli * a.pauli = 1 := by
  cases a <;> simp [pauli, Matrix.one_fin_two]

@[simp] theorem conjTranspose_pauli (a : Axis) : a.pauliᴴ = a.pauli := by
  cases a <;> ext i j <;> fin_cases i <;> fin_cases j <;> simp [pauli]

/-- The turn about an axis by an angle. -/
noncomputable def turn (a : Axis) (angle : ℝ) : Matrix (Fin 2) (Fin 2) ℂ :=
  (Real.cos (Scalar.half angle) : ℂ) • (1 : Matrix (Fin 2) (Fin 2) ℂ) -
    (Real.sin (Scalar.half angle) * I : ℂ) • a.pauli

theorem turn_eq (a : Axis) (angle : ℝ) :
    a.turn angle = (Real.cos (angle / 2) : ℂ) • (1 : Matrix (Fin 2) (Fin 2) ℂ) -
      (Real.sin (angle / 2) * I : ℂ) • a.pauli := by
  rw [turn, Scalar.half_real]

@[simp] theorem turn_zero (a : Axis) : a.turn 0 = 1 := by simp [turn_eq]

/-- **Turns about one axis add up**. -/
theorem turn_mul (a : Axis) (s t : ℝ) : a.turn s * a.turn t = a.turn (s + t) := by
  have hcos : (Real.cos ((s + t) / 2) : ℂ) = Real.cos (s / 2) * Real.cos (t / 2) -
      Real.sin (s / 2) * Real.sin (t / 2) := by
    rw [add_div, Real.cos_add]
    push_cast
    ring
  have hsin : (Real.sin ((s + t) / 2) : ℂ) = Real.sin (s / 2) * Real.cos (t / 2) +
      Real.cos (s / 2) * Real.sin (t / 2) := by
    rw [add_div, Real.sin_add]
    push_cast
    ring
  have hsquare : (Real.sin (t / 2) * I * (Real.sin (s / 2) * I) : ℂ) =
      -(Real.sin (s / 2) * Real.sin (t / 2)) := by
    linear_combination (Real.sin (s / 2) * Real.sin (t / 2) : ℂ) * Complex.I_mul_I
  simp only [turn_eq, sub_mul, mul_sub, Matrix.smul_mul, Matrix.mul_smul, one_mul, mul_one,
    pauli_mul_self, smul_smul, hcos, hsin, hsquare]
  module

theorem conjTranspose_turn (a : Axis) (t : ℝ) : (a.turn t)ᴴ = a.turn (-t) := by
  simp only [turn_eq, Matrix.conjTranspose_sub, Matrix.conjTranspose_smul, Matrix.conjTranspose_one,
    conjTranspose_pauli, neg_div, Real.cos_neg, Real.sin_neg, star_mul', Complex.star_def,
    Complex.conj_ofReal, Complex.conj_I, Complex.ofReal_neg, mul_neg, neg_mul]

theorem turn_mem_unitaryGroup (a : Axis) (t : ℝ) :
    a.turn t ∈ Matrix.unitaryGroup (Fin 2) ℂ := by
  rw [Matrix.mem_unitaryGroup_iff, Matrix.star_eq_conjTranspose, conjTranspose_turn, turn_mul,
    add_neg_cancel, turn_zero]

/-- How far a turn is from the identity: the square of the distance is the same for all vectors of
length one. -/
theorem turn_sub_one_sq (a : Axis) (t : ℝ) :
    (a.turn t - 1)ᴴ * (a.turn t - 1) = ((2 - 2 * Real.cos (t / 2) : ℝ) : ℂ) • 1 := by
  have hmul := turn_mul a (-t) t
  rw [neg_add_cancel, turn_zero] at hmul
  have hsum : a.turn (-t) + a.turn t = ((2 * Real.cos (t / 2) : ℝ) : ℂ) • 1 := by
    simp only [turn_eq, neg_div, Real.cos_neg, Real.sin_neg]
    push_cast
    module
  calc (a.turn t - 1)ᴴ * (a.turn t - 1)
      = (1 : Matrix (Fin 2) (Fin 2) ℂ) + 1 - (a.turn (-t) + a.turn t) := by
        rw [Matrix.conjTranspose_sub, conjTranspose_turn, Matrix.conjTranspose_one, sub_mul,
          mul_sub, mul_sub, hmul]
        simp only [one_mul, mul_one]
        abel
    _ = ((2 - 2 * Real.cos (t / 2) : ℝ) : ℂ) • 1 := by
        rw [hsum]
        push_cast
        module

end Axis

/-! ## Exchanges of rows -/

namespace SquareMatrix

/-- The identity with two rows exchanged is a permutation matrix. -/
theorem toMatrix_exchange {d a b : ℕ} (ha : a < d) (hb : b < d) :
    (exchange d a b : SquareMatrix ℝ).toMatrix d =
      (Equiv.swap (⟨a, ha⟩ : Fin d) ⟨b, hb⟩).permMatrix ℂ := by
  ext i j
  have hswap : ((Equiv.swap (⟨a, ha⟩ : Fin d) ⟨b, hb⟩ i : Fin d) : ℕ) =
      if (i : ℕ) = a then b else if (i : ℕ) = b then a else i := by
    simp only [Equiv.swap_apply_def, Fin.ext_iff]
    split
    · rfl
    · split <;> rfl
  rw [toMatrix, exchange, entry_ofFn _ i.isLt j.isLt, Equiv.Perm.permMatrix,
    PEquiv.toMatrix_apply, Equiv.toPEquiv_apply]
  simp only [Option.mem_def, Option.some.injEq, Fin.ext_iff, hswap]
  rw [apply_ite Amplitude.toComplex]
  rfl

/-- Exchanging two rows twice changes nothing, and the matrix is its own conjugate transpose. -/
theorem conjTranspose_exchange {d a b : ℕ} (ha : a < d) (hb : b < d) :
    ((exchange d a b : SquareMatrix ℝ).toMatrix d)ᴴ = (exchange d a b).toMatrix d := by
  rw [toMatrix_exchange ha hb, Matrix.conjTranspose_permMatrix, Equiv.swap_inv]

theorem exchange_mem_unitaryGroup {d a b : ℕ} (ha : a < d) (hb : b < d) :
    (exchange d a b : SquareMatrix ℝ).toMatrix d ∈ Matrix.unitaryGroup (Fin d) ℂ := by
  rw [Matrix.mem_unitaryGroup_iff, Matrix.star_eq_conjTranspose, conjTranspose_exchange ha hb,
    toMatrix_exchange ha hb, ← Matrix.permMatrix_mul, Equiv.swap_mul_self, Matrix.permMatrix_one]

end SquareMatrix

/-! ## The Hadamard matrix -/

theorem Scalar.invSqrtTwo_mul_self_complex :
    ((Scalar.invSqrtTwo : ℝ) : ℂ) * (Scalar.invSqrtTwo : ℝ) = 1 / 2 := by
  rw [← Complex.ofReal_mul, Scalar.invSqrtTwo_mul_self]
  norm_num

/-- The matrix that exchanges the first and the third axis. -/
noncomputable def hadamard : Matrix (Fin 2) (Fin 2) ℂ :=
  !![(Scalar.invSqrtTwo : ℝ), (Scalar.invSqrtTwo : ℝ);
    (Scalar.invSqrtTwo : ℝ), -(Scalar.invSqrtTwo : ℝ)]

@[simp] theorem hadamard_mul_self : hadamard * hadamard = 1 := by
  ext i j
  fin_cases i <;> fin_cases j <;>
    simp [hadamard, Matrix.mul_apply, Scalar.invSqrtTwo_mul_self_complex] <;> norm_num

theorem hadamard_pauli_z : hadamard * Axis.z.pauli * hadamard = Axis.x.pauli := by
  ext i j
  fin_cases i <;> fin_cases j <;>
    simp [hadamard, Axis.pauli, Matrix.mul_apply, Scalar.invSqrtTwo_mul_self_complex] <;> norm_num

theorem hadamard_mem_unitaryGroup : hadamard ∈ Matrix.unitaryGroup (Fin 2) ℂ := by
  have hself : hadamardᴴ = hadamard := by
    ext i j
    fin_cases i <;> fin_cases j <;> simp [hadamard]
  rw [Matrix.mem_unitaryGroup_iff, Matrix.star_eq_conjTranspose, hself, hadamard_mul_self]

/-! ## The catalog -/

namespace GateKind

open SquareMatrix

variable {k : GateKind} {n : ℕ}

/-- Only rotations depend on their parameters. -/
theorem unitary_congr {α : Type} [Scalar α] (hk : k.isRotation = false) (p p' : Parameters α)
    (n : ℕ) : k.unitary p n = k.unitary p' n := by
  cases k <;> first | rfl | cases hk

theorem toMatrix_h (p : Parameters ℝ) (n : ℕ) : (h.unitary p n).toMatrix 2 = hadamard := by
  rw [unitary, toMatrix_ofRows_two]
  rfl

theorem toMatrix_x (p : Parameters ℝ) (n : ℕ) : (x.unitary p n).toMatrix 2 = Axis.x.pauli := by
  rw [unitary, toMatrix_ofRows_two]
  rfl

theorem toMatrix_cz (p : Parameters ℝ) (n : ℕ) :
    (cz.unitary p n).toMatrix 4 = Matrix.diagonal ![1, 1, 1, -1] := by
  ext i j
  fin_cases i <;> fin_cases j <;> rfl

theorem toMatrix_iswap (p : Parameters ℝ) (n : ℕ) :
    (iswap.unitary p n).toMatrix 4 = !![1, 0, 0, 0; 0, 0, I, 0; 0, I, 0, 0; 0, 0, 0, 1] := by
  ext i j
  fin_cases i <;> fin_cases j <;> rfl

/-- A rotation is a turn about its axis. -/
theorem toMatrix_rotation (hk : k.isRotation = true) (parameters : Parameters ℝ) (n : ℕ) :
    ∃ a, k.axis = some a ∧
      (k.unitary parameters n).toMatrix 2 = a.turn (k.angleIn parameters) := by
  have hneg : ∀ x : ℝ, Amplitude.unit (Scalar.half (-x)) =
      ⟨Real.cos (x / 2), -Real.sin (x / 2)⟩ := fun x => by
    simp [Amplitude.unit, neg_div]
  have hpos : ∀ x : ℝ, Amplitude.unit (Scalar.half x) =
      ⟨Real.cos (x / 2), Real.sin (x / 2)⟩ := fun x => by
    simp [Amplitude.unit]
  cases k <;> simp only [isRotation, angleKey, Option.isSome_none, Bool.false_eq_true] at hk
  case rx | ry =>
    refine ⟨_, rfl, ?_⟩
    rw [unitary, toMatrix_ofRows_two, Axis.turn_eq, Scalar.half_real, Scalar.cos_real,
      Scalar.sin_real]
    ext i j
    fin_cases i <;> fin_cases j <;> refine Complex.ext ?_ ?_ <;>
      simp [-Complex.ofReal_sin, -Complex.ofReal_cos, Axis.pauli]
  case rz =>
    -- the program stores this one as two conjugate phases
    refine ⟨.z, rfl, ?_⟩
    rw [unitary, toMatrix_ofRows_two, Axis.turn_eq, hneg, hpos]
    ext i j
    fin_cases i <;> fin_cases j <;> refine Complex.ext ?_ ?_ <;>
      simp [-Complex.ofReal_sin, -Complex.ofReal_cos, Axis.pauli]

/-- A kind with an axis is a combination of the identity and the Pauli matrix of the axis. -/
theorem toMatrix_axis {a : Axis} (hk : k.axis = some a) (parameters : Parameters ℝ) (n : ℕ) :
    ∃ u v : ℂ, (k.unitary parameters n).toMatrix 2 = u • 1 + v • a.pauli := by
  by_cases hr : k.isRotation = true
  · obtain ⟨a', ha', hturn⟩ := toMatrix_rotation hr parameters n
    cases hk.symm.trans ha'
    exact ⟨Real.cos (k.angleIn parameters / 2), -(Real.sin (k.angleIn parameters / 2) * I), by
      rw [hturn, Axis.turn_eq, neg_smul, sub_eq_add_neg]⟩
  · -- a diagonal with entries 1 and w is ((1 + w) / 2) • 1 + ((1 - w) / 2) • Z
    have hphase : ∀ w : ℂ, !![1, 0; 0, w] = ((1 + w) / 2) • (1 : Matrix (Fin 2) (Fin 2) ℂ) +
        ((1 - w) / 2) • Axis.z.pauli := fun w => by
      ext i j
      fin_cases i <;> fin_cases j <;> simp [Axis.pauli] <;> ring
    cases k <;> simp [axis, isRotation, angleKey] at hk hr <;> subst hk
    case x | y =>
      refine ⟨0, 1, ?_⟩
      rw [unitary, toMatrix_ofRows_two, zero_smul, zero_add, one_smul]
      simp [Axis.pauli]
    all_goals
      rw [unitary, toMatrix_ofRows_two]
      exact ⟨_, _, hphase _⟩

/-- Kinds about one axis commute. -/
theorem toMatrix_comm_of_axis {k' : GateKind} {a : Axis} (hk : k.axis = some a)
    (hk' : k'.axis = some a) (p p' : Parameters ℝ) (n n' : ℕ) :
    (k.unitary p n).toMatrix 2 * (k'.unitary p' n').toMatrix 2 =
      (k'.unitary p' n').toMatrix 2 * (k.unitary p n).toMatrix 2 := by
  obtain ⟨u, v, h⟩ := toMatrix_axis hk p n
  obtain ⟨u', v', h'⟩ := toMatrix_axis hk' p' n'
  simp only [h, h', add_mul, mul_add, Matrix.smul_mul, Matrix.mul_smul, one_mul, mul_one,
    Axis.pauli_mul_self, smul_smul]
  module

/-! ### Inverses -/

theorem toMatrix_adjoint {k' : GateKind} (hk : k.adjoint = some k') (hr : k.isRotation = false)
    (hn : ∀ m, k.arity = some m → n = m) (p p' : Parameters ℝ) :
    (k'.unitary p' n).toMatrix (Qubit.dimension n) =
      ((k.unitary p n).toMatrix (Qubit.dimension n))ᴴ := by
  cases k <;> simp [adjoint, isSelfInverse, isRotation, angleKey] at hk hr <;> subst hk
  case identity => simp [unitary]
  case toffoli | fredkin | cnot | swap =>
    obtain rfl := hn _ rfl
    exact (conjTranspose_exchange (by decide) (by decide)).symm
  case cz =>
    obtain rfl := hn _ rfl
    show toMatrix _ 4 = (toMatrix _ 4)ᴴ
    rw [toMatrix_cz, toMatrix_cz, Matrix.diagonal_conjTranspose]
    congr 1
    ext i
    fin_cases i <;> simp
  all_goals
    obtain rfl := hn _ rfl
    show toMatrix _ 2 = (toMatrix _ 2)ᴴ
    simp only [unitary, toMatrix_ofRows_two]
    ext i j
    fin_cases i <;> fin_cases j <;> simp [← Complex.exp_conj, map_ofNat]

/-! ### Unitarity -/

/-- Giving a phase to the second state. -/
theorem phase_mem_unitaryGroup {w : ℂ} (hw : w * (starRingEnd ℂ) w = 1) :
    !![1, 0; 0, w] ∈ Matrix.unitaryGroup (Fin 2) ℂ := by
  rw [Matrix.mem_unitaryGroup_iff]
  ext i j
  fin_cases i <;> fin_cases j <;> simp [Matrix.mul_apply, Matrix.star_apply, hw]

/-- The closed forms of one qubit. -/
theorem toMatrix_two_mem_unitaryGroup (hk : k.arity = some 1) (p : Parameters ℝ) :
    (k.unitary p 1).toMatrix 2 ∈ Matrix.unitaryGroup (Fin 2) ℂ := by
  by_cases hr : k.isRotation = true
  · obtain ⟨a, -, hturn⟩ := toMatrix_rotation hr p 1
    rw [hturn]
    exact a.turn_mem_unitaryGroup _
  cases k <;> simp [arity, isRotation, angleKey] at hk hr
  case identity =>
    rw [unitary]
    exact (toMatrix_identity 2).symm ▸ one_mem _
  case h =>
    rw [toMatrix_h]
    exact hadamard_mem_unitaryGroup
  -- the others have their entries written out
  all_goals rw [unitary, toMatrix_ofRows_two]
  case s | sdg => exact phase_mem_unitaryGroup (by simp)
  case t | tdg =>
    exact phase_mem_unitaryGroup (by simp [← Complex.exp_conj, ← Complex.exp_add, map_ofNat])
  case x | y | z =>
    rw [Matrix.mem_unitaryGroup_iff]
    ext i j
    fin_cases i <;> fin_cases j <;> simp [Matrix.mul_apply, Matrix.star_apply]

theorem toMatrix_cz_mem_unitaryGroup (p : Parameters ℝ) (n : ℕ) :
    (cz.unitary p n).toMatrix 4 ∈ Matrix.unitaryGroup (Fin 4) ℂ := by
  rw [toMatrix_cz, Matrix.mem_unitaryGroup_iff]
  ext i j
  fin_cases i <;> fin_cases j <;> simp [Matrix.mul_apply, Fin.sum_univ_succ]

theorem toMatrix_iswap_mem_unitaryGroup (p : Parameters ℝ) (n : ℕ) :
    (iswap.unitary p n).toMatrix 4 ∈ Matrix.unitaryGroup (Fin 4) ℂ := by
  rw [toMatrix_iswap, Matrix.mem_unitaryGroup_iff]
  ext i j
  fin_cases i <;> fin_cases j <;> simp [Matrix.mul_apply, Matrix.star_apply, Fin.sum_univ_succ]

/-- **Every closed form is unitary**. -/
theorem toMatrix_mem_unitaryGroup (hn : ∀ m, k.arity = some m → n = m) (p : Parameters ℝ) :
    (k.unitary p n).toMatrix (Qubit.dimension n) ∈
      Matrix.unitaryGroup (Fin (Qubit.dimension n)) ℂ := by
  by_cases hk : k.arity = some 1
  · obtain rfl := hn 1 hk
    exact toMatrix_two_mem_unitaryGroup hk p
  cases k <;> simp only [arity, not_true_eq_false] at hk
  case custom | named =>
    -- these have no closed form, and stand for the identity on any number of qubits
    rw [unitary, toMatrix_identity]
    exact one_mem _
  case cnot | swap | toffoli | fredkin =>
    obtain rfl := hn _ rfl
    exact exchange_mem_unitaryGroup (by decide) (by decide)
  case cz =>
    obtain rfl := hn _ rfl
    exact toMatrix_cz_mem_unitaryGroup p 2
  case iswap =>
    obtain rfl := hn _ rfl
    exact toMatrix_iswap_mem_unitaryGroup p 2

end GateKind

end QuantumWorkbench
