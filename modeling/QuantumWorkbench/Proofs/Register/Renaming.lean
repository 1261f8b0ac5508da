import Mathlib
import QuantumWorkbench.Proofs.Register.Operator

/-!
# Renaming the qubits of a register

A map of basis indices that moves every bit to the place of another qubit turns a matrix on some
qubits into the same matrix on the renamed ones. The matrix that exchanges the values of two qubits
acts as such a map, so it can be pushed to the end of any sequence of gates.
-/

namespace QuantumWorkbench.Register

variable {f g : ℕ → ℕ} {σ τ : Equiv.Perm ℕ}

/-! ## Moving bits -/

/-- A map of basis indices that moves the bit of every qubit to the place of another. -/
def Carries (f : ℕ → ℕ) (σ : Equiv.Perm ℕ) : Prop := ∀ x q, (f x).testBit (σ q) = x.testBit q

theorem carries_id : Carries id 1 := fun _ _ => rfl

theorem Carries.comp (hf : Carries f σ) (hg : Carries g τ) : Carries (f ∘ g) (σ * τ) := fun x q =>
  (hf (g x) (τ q)).trans (hg x q)

theorem Carries.eq_of_testBit (hf : Carries f σ) {x y : ℕ}
    (h : ∀ q, y.testBit (σ q) = x.testBit q) : y = f x := by
  apply Nat.eq_of_testBit_eq
  intro p
  -- every place is the place of some qubit
  obtain ⟨q, rfl⟩ := σ.surjective p
  rw [h, hf]

/-- The index with the bits of two qubits exchanged. -/
def exchangeBits (a b x : ℕ) : ℕ := setBit a (x.testBit b) (setBit b (x.testBit a) x)

theorem carries_exchangeBits (a b : ℕ) : Carries (exchangeBits a b) (Equiv.swap a b) := by
  intro x q
  rw [exchangeBits, testBit_setBit, testBit_setBit]
  by_cases ha : q = a
  · subst ha
    rw [Equiv.swap_apply_left, if_pos rfl]
    split
    · next h => rw [h]
    · rfl
  · by_cases hb : q = b
    · subst hb
      rw [Equiv.swap_apply_right, if_pos rfl]
    · rw [Equiv.swap_apply_of_ne_of_ne ha hb, if_neg ha, if_neg hb]

/-! ## Reading and putting renamed bits -/

theorem Carries.bitsAt_map (hf : Carries f σ) (qs : List ℕ) (x : ℕ) :
    bitsAt (qs.map σ) (f x) = bitsAt qs x := by
  induction qs with
  | nil => rfl
  | cons q qs ih => rw [List.map_cons, bitsAt, bitsAt, ih, hf, List.length_map]

theorem bitFor_map (σ : Equiv.Perm ℕ) (qs : List ℕ) (c p : ℕ) :
    bitFor (qs.map σ) c (σ p) = bitFor qs c p := by
  induction qs with
  | nil => rfl
  | cons q qs ih =>
    rw [List.map_cons, bitFor, bitFor, ih, List.length_map]
    simp only [σ.injective.eq_iff]

theorem Carries.putBits_map (hf : Carries f σ) (qs : List ℕ) (c x : ℕ) :
    putBits (qs.map σ) c (f x) = f (putBits qs c x) := by
  apply hf.eq_of_testBit
  intro q
  rw [testBit_putBits, testBit_putBits, bitFor_map, hf]
  simp only [List.mem_map_of_injective σ.injective]

/-! ## Operators -/

/-- **A matrix on renamed qubits** does what it did on the qubits before, on waves whose indices
are moved. -/
theorem Carries.applyAt_map (hf : Carries f σ) (qs : List ℕ) (F : ℕ → ℕ → ℂ) :
    applyAt qs (.of fun i j => F i j) ∘ₗ LinearMap.funLeft ℂ ℂ f =
      LinearMap.funLeft ℂ ℂ f ∘ₗ applyAt (qs.map σ) (.of fun i j => F i j) := by
  apply map_ext
  intro ψ x
  rw [LinearMap.comp_apply, LinearMap.comp_apply, LinearMap.funLeft_apply, applyAt_apply,
    applyAt_apply]
  simp only [LinearMap.funLeft_apply, Matrix.of_apply, slot, hf.bitsAt_map]
  -- both sums run over the same numbers
  rw [Fin.sum_univ_eq_sum_range
      (fun c => F (bitsAt qs x) c * ψ (f (putBits qs c x))) (2 ^ qs.length),
    Fin.sum_univ_eq_sum_range
      (fun c => F (bitsAt qs x) c * ψ (putBits (qs.map σ) c (f x))) (2 ^ (qs.map σ).length),
    List.length_map]
  exact Finset.sum_congr rfl fun c _ => by rw [hf.putBits_map]

end QuantumWorkbench.Register
