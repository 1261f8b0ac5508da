import Mathlib
import QuantumWorkbench.Proofs.Gate.Network
import QuantumWorkbench.Proofs.Register.Layer

/-!
# Diagonal operators

Phases multiply index by index, moving indices there and back moves the phase, and a turn about the
third axis is a phase that depends on one bit.
-/

namespace QuantumWorkbench.Gate

open Register
open Complex (I)

/-! ## Phases -/

theorem phases_comp (F G : ℕ → ℂ) : phases F ∘ₗ phases G = phases fun x => F x * G x :=
  map_ext fun ψ x => (mul_assoc (F x) (G x) (ψ x)).symm

@[simp] theorem phases_one : phases (fun _ => 1) = LinearMap.id :=
  map_ext fun ψ x => one_mul (ψ x)

/-- Moving the indices, multiplying and moving them back multiplies by the moved phase. -/
theorem funLeft_phases_funLeft {f : ℕ → ℕ} (hf : Function.Involutive f) (F : ℕ → ℂ) :
    LinearMap.funLeft ℂ ℂ f ∘ₗ phases F ∘ₗ LinearMap.funLeft ℂ ℂ f = phases fun x => F (f x) :=
  map_ext fun ψ x => congrArg (fun y => F (f x) * ψ y) (hf x)

/-- A flip is undone by itself where its condition does not look at the qubit. -/
theorem flipIf_involutive {on : ℕ → Bool} {q : ℕ} (hon : ∀ b x, on (setBit q b x) = on x) :
    Function.Involutive (flipIf on q) := by
  intro x
  have hsame : on (flipIf on q x) = on x := hon _ x
  apply Nat.eq_of_testBit_eq
  intro p
  rw [testBit_flipIf, hsame, testBit_flipIf, testBit_flipIf, if_pos rfl]
  split
  · next h => rw [h, Bool.xor_assoc, Bool.xor_self, Bool.xor_false]
  · rfl

/-- Between two controlled negations a phase sees the target with the control added. -/
theorem operator_cnot_phases_cnot {a b : ℕ} (hab : a ≠ b) (F : ℕ → ℂ) :
    (plain .cnot [a, b]).operator ∘ₗ phases F ∘ₗ (plain .cnot [a, b]).operator =
      phases fun x => F (flipIf (·.testBit a) b x) := by
  rw [operator_cnot hab]
  exact funLeft_phases_funLeft (flipIf_involutive fun v x => by rw [testBit_setBit, if_neg hab]) F

/-- Between two doubly controlled negations a phase sees the target with the conjunction of the
controls added. -/
theorem operator_toffoli_phases_toffoli {a b c : ℕ} (h : [a, b, c].Nodup) (F : ℕ → ℂ) :
    (plain .toffoli [a, b, c]).operator ∘ₗ phases F ∘ₗ (plain .toffoli [a, b, c]).operator =
      phases fun x => F (flipIf (fun x => x.testBit a && x.testBit b) c x) := by
  have hac : a ≠ c := by simp at h; omega
  have hbc : b ≠ c := by simp at h; omega
  rw [operator_toffoli h]
  exact funLeft_phases_funLeft (flipIf_involutive fun v x => by
    rw [testBit_setBit, testBit_setBit, if_neg hac, if_neg hbc]) F

/-! ## Turns about the third axis -/

/-- The phase that a turn about the third axis by an angle gives to a bit. -/
noncomputable def spin (angle : ℝ) (b : Bool) : ℂ :=
  Complex.exp ((if b then angle / 2 else -(angle / 2) : ℝ) * I)

theorem spin_eq (angle : ℝ) (b : Bool) : spin angle b =
    (Real.cos (angle / 2) : ℂ) - (Real.sin (angle / 2) * I : ℂ) * bitPhase (-1) b := by
  cases b with
  | false =>
    rw [spin, if_neg Bool.false_ne_true, Complex.exp_mul_I, ← Complex.ofReal_cos,
      ← Complex.ofReal_sin, Real.cos_neg, Real.sin_neg, Complex.ofReal_neg, bitPhase_false]
    ring
  | true =>
    rw [spin, if_pos rfl, Complex.exp_mul_I, ← Complex.ofReal_cos, ← Complex.ofReal_sin,
      bitPhase_true]
    ring

/-- A phase that depends on the value of one bit, or of several added, is an exponential. -/
theorem phases_spin (on : ℕ → Bool) (angle : ℝ) : phases (fun x => spin angle (on x)) =
    exponential (phases fun x => bitPhase (-1) (on x)) (angle / 2) := by
  apply map_ext
  intro ψ x
  rw [phases_apply, spin_eq, sub_mul, mul_assoc]
  rfl

theorem applyAt_pauli_z (q : ℕ) :
    applyAt [q] Axis.z.pauli = phases fun x => bitPhase (-1) (x.testBit q) := by
  apply map_ext
  intro ψ x
  rw [phases_apply]
  refine (applyAt_singleton q Axis.z.pauli ψ x).trans ?_
  cases hbit : x.testBit q with
  | false =>
    have hsame : setBit q false x = x := if_pos hbit
    simp [hsame, place, Axis.pauli]
  | true =>
    have hsame : setBit q true x = x := if_pos hbit
    simp [hsame, place, Axis.pauli]

theorem turnAt_z (q : ℕ) (angle : ℝ) :
    turnAt .z q angle = phases fun x => spin angle (x.testBit q) := by
  rw [turnAt_eq, applyAt_pauli_z, phases_spin]

end QuantumWorkbench.Gate
