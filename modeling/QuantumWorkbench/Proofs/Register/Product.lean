import Mathlib
import QuantumWorkbench.Proofs.Register.Action

/-!
# Registers side by side

A register of `m` qubits below another makes one register: its low `m` bits belong to the first, the
bits above them to the second. The product of two waves is a wave of both registers together. A
matrix on low qubits acts on the first factor and on nothing else, a matrix on qubits moved up by
`m` acts on the second; and the product of two stored states holds the product of their waves.
-/

namespace QuantumWorkbench.Register

variable {m : ℕ} {qs : List ℕ}

/-! ## Low and high bits -/

/-- The bits of the low qubits are read and put in the low part of an index. -/
theorem bitsAt_mod (hqs : ∀ q ∈ qs, q < m) (x : ℕ) : bitsAt qs (x % 2 ^ m) = bitsAt qs x := by
  apply bitsAt_congr
  intro q hq
  simp [Nat.testBit_mod_two_pow, hqs q hq]

theorem putBits_mod (hqs : ∀ q ∈ qs, q < m) (c x : ℕ) :
    putBits qs c x % 2 ^ m = putBits qs c (x % 2 ^ m) := by
  apply Nat.eq_of_testBit_eq
  intro p
  simp only [Nat.testBit_mod_two_pow, testBit_putBits]
  by_cases hp : p ∈ qs
  · simp [hp, hqs p hp]
  · simp [hp]

theorem putBits_div (hqs : ∀ q ∈ qs, q < m) (c x : ℕ) : putBits qs c x / 2 ^ m = x / 2 ^ m := by
  apply Nat.eq_of_testBit_eq
  intro p
  -- no qubit of the list lies in the high part
  have hp : p + m ∉ qs := fun h => absurd (hqs _ h) (Nat.not_lt.2 (Nat.le_add_left m p))
  simp only [Nat.testBit_div_two_pow, testBit_putBits_of_notMem hp]

/-- Qubits that are moved up are read and put in the high part of an index. -/
theorem bitsAt_map_add (qs : List ℕ) (x : ℕ) :
    bitsAt (qs.map (· + m)) x = bitsAt qs (x / 2 ^ m) := by
  induction qs with
  | nil => rfl
  | cons q qs ih => simp only [List.map_cons, bitsAt, List.length_map, Nat.testBit_div_two_pow, ih]

theorem bitFor_map_add (qs : List ℕ) (c p : ℕ) :
    bitFor (qs.map (· + m)) c (p + m) = bitFor qs c p := by
  induction qs with
  | nil => rfl
  | cons q qs ih => simp only [List.map_cons, bitFor, List.length_map, Nat.add_right_cancel_iff, ih]

theorem putBits_map_add_div (qs : List ℕ) (c x : ℕ) :
    putBits (qs.map (· + m)) c x / 2 ^ m = putBits qs c (x / 2 ^ m) := by
  apply Nat.eq_of_testBit_eq
  intro p
  simp only [Nat.testBit_div_two_pow, testBit_putBits, bitFor_map_add, List.mem_map,
    Nat.add_right_cancel_iff, exists_eq_right]

theorem putBits_map_add_mod (qs : List ℕ) (c x : ℕ) :
    putBits (qs.map (· + m)) c x % 2 ^ m = x % 2 ^ m := by
  apply Nat.eq_of_testBit_eq
  intro p
  simp only [Nat.testBit_mod_two_pow]
  by_cases hp : p < m
  · -- below `m` stands no qubit of the list
    have hlow : p ∉ qs.map (· + m) := fun h => by
      obtain ⟨q, -, hq⟩ := List.mem_map.1 h
      omega
    rw [testBit_putBits_of_notMem hlow]
  · simp [hp]

/-! ## Products of waves -/

/-- The wave of two registers side by side, the first on the low `m` qubits. -/
def productWave (m : ℕ) (φ ψ : Wave) : Wave := fun x => φ (x % 2 ^ m) * ψ (x / 2 ^ m)

/-- **A matrix on the low register** acts on the first factor. -/
theorem applyAt_productWave_low (hqs : ∀ q ∈ qs, q < m) (M : LocalMatrix qs) (φ ψ : Wave) :
    applyAt qs M (productWave m φ ψ) = productWave m (applyAt qs M φ) ψ := by
  funext x
  have hslot : slot qs (x % 2 ^ m) = slot qs x := Fin.ext (bitsAt_mod hqs x)
  simp only [applyAt_apply, productWave, putBits_mod hqs, putBits_div hqs, hslot, Finset.sum_mul,
    mul_assoc]

/-- **A matrix on the high register** acts on the second factor. -/
theorem applyAt_productWave_high (qs : List ℕ) (F : ℕ → ℕ → ℂ) (φ ψ : Wave) :
    applyAt (qs.map (· + m)) (.of fun i j => F i j) (productWave m φ ψ) =
      productWave m φ (applyAt qs (.of fun i j => F i j) ψ) := by
  funext x
  simp only [applyAt_apply, productWave, putBits_map_add_mod, putBits_map_add_div, Matrix.of_apply,
    slot, bitsAt_map_add, Finset.mul_sum, mul_left_comm (φ (x % 2 ^ m))]
  -- both sums run over the same numbers
  rw [Fin.sum_univ_eq_sum_range (fun c => F (bitsAt qs (x / 2 ^ m)) c *
      (φ (x % 2 ^ m) * ψ (putBits qs c (x / 2 ^ m)))) (2 ^ (qs.map (· + m)).length),
    Fin.sum_univ_eq_sum_range (fun c => F (bitsAt qs (x / 2 ^ m)) c *
      (φ (x % 2 ^ m) * ψ (putBits qs c (x / 2 ^ m)))) (2 ^ qs.length), List.length_map]

/-! ## Products of stored states -/

/-- The items of a table that is made row by row. -/
theorem getElem?_flatMap_map {β γ δ : Type} (f : β → γ → δ) (xs : List β) {ys : List γ}
    (hys : 0 < ys.length) (k : ℕ) :
    (xs.flatMap fun x => ys.map (f x))[k]? =
      xs[k / ys.length]?.bind fun x => ys[k % ys.length]?.map (f x) := by
  induction xs generalizing k with
  | nil => simp
  | cons x xs ih =>
    rw [List.flatMap_cons]
    by_cases hk : k < ys.length
    · simp [List.getElem?_append_left, hk, Nat.div_eq_of_lt hk, Nat.mod_eq_of_lt hk]
    · -- the first row is passed
      have hle := Nat.le_of_not_lt hk
      rw [List.getElem?_append_right (by simpa using hle), List.length_map, ih,
        Nat.div_eq_sub_div hys hle, Nat.mod_eq_sub_mod hle, List.getElem?_cons_succ]

variable {s t : StateVector ℝ}

theorem toList_tensor (s t : StateVector ℝ) : (t.tensor s).amplitudes.toList =
    t.amplitudes.toList.flatMap fun a => s.amplitudes.toList.map fun b => a * b := by
  simp [StateVector.tensor, StateVector.measured, Array.toList_flatMap]

theorem size_tensor (s t : StateVector ℝ) :
    (t.tensor s).amplitudes.size = t.amplitudes.size * s.amplitudes.size := by
  rw [← Array.length_toList, toList_tensor, List.length_flatMap]
  simp

/-- **The product of two states** is the product of their waves, the second state on the low
qubits. -/
theorem wave_tensor (hs : s.amplitudes.size = 2 ^ m) :
    wave (t.tensor s).amplitudes = productWave m (wave s.amplitudes) (wave t.amplitudes) := by
  funext x
  have hlen : s.amplitudes.toList.length = 2 ^ m := by rw [Array.length_toList, hs]
  have hitem : (t.tensor s).amplitudes[x]? = t.amplitudes[x / 2 ^ m]?.bind fun a =>
      s.amplitudes[x % 2 ^ m]?.map fun b => a * b := by
    simp only [← Array.getElem?_toList, toList_tensor]
    rw [getElem?_flatMap_map _ _ (hlen ▸ Nat.two_pow_pos m), hlen]
  simp only [wave, productWave, Array.getD_eq_getD_getElem?, hitem]
  cases t.amplitudes[x / 2 ^ m]? with
  | none => simp
  | some a =>
    cases s.amplitudes[x % 2 ^ m]? with
    | none => simp
    | some b => simp [mul_comm]

end QuantumWorkbench.Register
