import Mathlib
import QuantumWorkbench.Proofs.Register.Operator

/-!
# Layers of one-qubit matrices

A layer puts one matrix on each of some qubits. Layers multiply qubit by qubit. On all the qubits of
a register the amplitude that a layer gives an index is a sum over all ways to replace the low bits
of that index, weighted by the product of the entries at the bits.
-/

namespace QuantumWorkbench.Register

/-! ## Low bits -/

/-- Whether an index lies in a register depends on the bits beyond it. -/
theorem lt_two_pow_congr {n x y : ℕ} (h : ∀ p, n ≤ p → x.testBit p = y.testBit p) :
    x < 2 ^ n ↔ y < 2 ^ n := by
  have hdiv : x / 2 ^ n = y / 2 ^ n := Nat.eq_of_testBit_eq fun p => by
    rw [Nat.testBit_div_two_pow, Nat.testBit_div_two_pow, h _ (by omega)]
  have hpos := Nat.two_pow_pos n
  rw [← Nat.div_eq_zero_iff_lt hpos, hdiv, Nat.div_eq_zero_iff_lt hpos]

/-- Indices of a register are equal where their bits are. -/
theorem eq_iff_testBit {n x y : ℕ} (hx : x < 2 ^ n) (hy : y < 2 ^ n) :
    x = y ↔ ∀ q < n, x.testBit q = y.testBit q := by
  refine ⟨fun h q _ => by rw [h], fun h => Nat.eq_of_testBit_eq fun p => ?_⟩
  by_cases hp : p < n
  · exact h p hp
  · have hle := Nat.pow_le_pow_right two_pos (Nat.le_of_not_lt hp)
    rw [Nat.testBit_lt_two_pow (hx.trans_le hle), Nat.testBit_lt_two_pow (hy.trans_le hle)]

/-- The index with its `m` low bits replaced by those of a number below `2ᵐ`. -/
def withLow (m x c : ℕ) : ℕ := 2 ^ m * (x / 2 ^ m) + c

theorem testBit_withLow {m c : ℕ} (hc : c < 2 ^ m) (x q : ℕ) :
    (withLow m x c).testBit q = if q < m then c.testBit q else x.testBit q := by
  rw [withLow, Nat.testBit_two_pow_mul_add _ hc]
  split
  · rfl
  · rw [Nat.testBit_div_two_pow]
    congr 1
    omega

theorem withLow_of_lt {m x : ℕ} (hx : x < 2 ^ m) (c : ℕ) : withLow m x c = c := by
  rw [withLow, Nat.div_eq_of_lt hx, Nat.mul_zero, Nat.zero_add]

/-- Replacing low bits leaves no register. -/
theorem two_pow_le_withLow {m x : ℕ} (hx : 2 ^ m ≤ x) (c : ℕ) : 2 ^ m ≤ withLow m x c := by
  have hpos : 1 ≤ x / 2 ^ m := (Nat.one_le_div_iff (Nat.two_pow_pos m)).2 hx
  have hmul := Nat.mul_le_mul_left (2 ^ m) hpos
  rw [withLow]
  omega

/-- One more low bit. -/
def lowBit (m : ℕ) (b : Bool) (c : ℕ) : ℕ := 2 ^ m * b.toNat + c

theorem lowBit_lt {m c : ℕ} (hc : c < 2 ^ m) (b : Bool) : lowBit m b c < 2 ^ (m + 1) := by
  have hb : 2 ^ m * b.toNat ≤ 2 ^ m * 1 := Nat.mul_le_mul_left _ (Bool.toNat_le b)
  rw [lowBit, Nat.pow_succ]
  omega

theorem testBit_lowBit {m c : ℕ} (hc : c < 2 ^ m) (b : Bool) (q : ℕ) :
    (lowBit m b c).testBit q = if q < m then c.testBit q else if q = m then b else false := by
  rw [lowBit, Nat.testBit_two_pow_mul_add _ hc]
  split
  · rfl
  · next h =>
    by_cases hq : q = m
    · subst hq
      cases b <;> simp
    · obtain ⟨k, hk⟩ : ∃ k, q - m = k + 1 := ⟨q - m - 1, by omega⟩
      rw [if_neg hq, hk]
      cases b <;> simp [Nat.testBit_succ]

theorem mod_two_pow_succ (m x : ℕ) : x % 2 ^ (m + 1) = lowBit m (x.testBit m) (x % 2 ^ m) := by
  rw [Nat.mod_pow_succ, lowBit, Nat.toNat_testBit, Nat.add_comm]

/-- Setting the next bit after the low ones, or before them, replaces one bit more. -/
theorem setBit_withLow {m c : ℕ} (hc : c < 2 ^ m) (b : Bool) (x : ℕ) :
    setBit m b (withLow m x c) = withLow (m + 1) x (lowBit m b c) := by
  apply Nat.eq_of_testBit_eq
  intro q
  rw [testBit_setBit, testBit_withLow hc, testBit_withLow (lowBit_lt hc b), testBit_lowBit hc]
  grind

theorem withLow_setBit {m c : ℕ} (hc : c < 2 ^ m) (b : Bool) (x : ℕ) :
    withLow m (setBit m b x) c = withLow (m + 1) x (lowBit m b c) := by
  apply Nat.eq_of_testBit_eq
  intro q
  rw [testBit_withLow hc, testBit_setBit, testBit_withLow (lowBit_lt hc b), testBit_lowBit hc]
  grind

/-- The numbers with one bit more are those with a zero and those with a one in front. -/
theorem sum_lowBit (m : ℕ) (f : ℕ → ℂ) :
    ∑ c ∈ Finset.range (2 ^ (m + 1)), f c =
      ∑ c ∈ Finset.range (2 ^ m), (f (lowBit m false c) + f (lowBit m true c)) := by
  rw [Nat.pow_succ, Nat.mul_two, Finset.sum_range_add, ← Finset.sum_add_distrib]
  exact Finset.sum_congr rfl fun c _ => by simp [lowBit]

/-! ## Layers -/

/-- The row or column of a one-qubit matrix that belongs to a bit. -/
def place (b : Bool) : Fin 2 := if b then 1 else 0

theorem applyAt_singleton (q : ℕ) (M : Matrix (Fin 2) (Fin 2) ℂ) (ψ : Wave) (x : ℕ) :
    applyAt [q] M ψ x = M (place (x.testBit q)) 0 * ψ (setBit q false x) +
      M (place (x.testBit q)) 1 * ψ (setBit q true x) := by
  have hslot : slot [q] x = place (x.testBit q) := by
    apply Fin.ext
    cases h : x.testBit q <;> simp [slot, bitsAt, place, h]
  show ∑ c : Fin 2, M (slot [q] x) c * ψ (putBits [q] c x) = _
  rw [hslot, Fin.sum_univ_two]
  rfl

section

variable {ι : Type} (qubit : ι → ℕ)

/-- One matrix on the qubit of each item of a list, the first one first. -/
noncomputable def layer (A : ι → Matrix (Fin 2) (Fin 2) ℂ) : List ι → Wave →ₗ[ℂ] Wave
  | [] => LinearMap.id
  | i :: is => layer A is ∘ₗ applyAt [qubit i] (A i)

variable {qubit}

theorem layer_append (A : ι → Matrix (Fin 2) (Fin 2) ℂ) (is js : List ι) :
    layer qubit A (is ++ js) = layer qubit A js ∘ₗ layer qubit A is := by
  induction is with
  | nil => rfl
  | cons i is ih => rw [List.cons_append, layer, ih, layer, LinearMap.comp_assoc]

theorem layer_one (is : List ι) : layer qubit (fun _ => 1) is = LinearMap.id := by
  induction is with
  | nil => rfl
  | cons i is ih =>
    have hone : applyAt [qubit i] (1 : Matrix (Fin 2) (Fin 2) ℂ) = LinearMap.id := applyAt_one _
    rw [layer, ih, hone]
    rfl

/-- A matrix on another qubit may be moved past a layer. -/
theorem layer_comm (A : ι → Matrix (Fin 2) (Fin 2) ℂ) {is : List ι} {q : ℕ}
    (hq : q ∉ is.map qubit) (M : Matrix (Fin 2) (Fin 2) ℂ) :
    layer qubit A is ∘ₗ applyAt [q] M = applyAt [q] M ∘ₗ layer qubit A is := by
  induction is with
  | nil => rfl
  | cons i is ih =>
    obtain ⟨hne, hq⟩ := List.ne_and_not_mem_of_not_mem_cons hq
    have hdisjoint : List.Disjoint [qubit i] [q] := by
      simpa using hne
    have hswap : applyAt [qubit i] (A i) ∘ₗ applyAt [q] M =
        applyAt [q] M ∘ₗ applyAt [qubit i] (A i) := applyAt_comm hdisjoint _ _
    rw [layer, LinearMap.comp_assoc, hswap, ← LinearMap.comp_assoc, ih hq, LinearMap.comp_assoc]

/-- **Layers multiply qubit by qubit.** -/
theorem layer_comp (A B : ι → Matrix (Fin 2) (Fin 2) ℂ) {is : List ι} (his : (is.map qubit).Nodup) :
    layer qubit A is ∘ₗ layer qubit B is = layer qubit (fun i => A i * B i) is := by
  induction is with
  | nil => rfl
  | cons i is ih =>
    obtain ⟨hi, his⟩ := List.nodup_cons.1 his
    have hmul : applyAt [qubit i] (A i) ∘ₗ applyAt [qubit i] (B i) =
        applyAt [qubit i] (A i * B i) := (applyAt_mul (List.nodup_singleton _) _ _).symm
    calc layer qubit A (i :: is) ∘ₗ layer qubit B (i :: is)
        = layer qubit A is ∘ₗ (applyAt [qubit i] (A i) ∘ₗ layer qubit B is) ∘ₗ
          applyAt [qubit i] (B i) := rfl
      _ = (layer qubit A is ∘ₗ layer qubit B is) ∘ₗ
          (applyAt [qubit i] (A i) ∘ₗ applyAt [qubit i] (B i)) := by
          rw [← layer_comm B hi]
          simp only [LinearMap.comp_assoc]
      _ = layer qubit (fun i => A i * B i) (i :: is) := by rw [hmul, ih his, layer]

/-- The order of the items does not matter. -/
theorem layer_reverse (A : ι → Matrix (Fin 2) (Fin 2) ℂ) {is : List ι}
    (his : (is.map qubit).Nodup) : layer qubit A is.reverse = layer qubit A is := by
  induction is with
  | nil => rfl
  | cons i is ih =>
    obtain ⟨hi, his⟩ := List.nodup_cons.1 his
    rw [List.reverse_cons, layer_append, ih his]
    exact (layer_comm A hi (A i)).symm

end

/-! ## Layers on a register -/

/-- The weight that a layer gives to replacing the bits of one index by those of another. -/
noncomputable def weight (A : ℕ → Matrix (Fin 2) (Fin 2) ℂ) (m x c : ℕ) : ℂ :=
  ∏ q ∈ Finset.range m, A q (place (x.testBit q)) (place (c.testBit q))

theorem weight_congr (A : ℕ → Matrix (Fin 2) (Fin 2) ℂ) {m x y c d : ℕ}
    (hx : ∀ q < m, x.testBit q = y.testBit q) (hc : ∀ q < m, c.testBit q = d.testBit q) :
    weight A m x c = weight A m y d :=
  Finset.prod_congr rfl fun q hq => by
    rw [hx q (Finset.mem_range.1 hq), hc q (Finset.mem_range.1 hq)]

/-- **The amplitude of a layer at an index** sums over all values of the low bits. -/
theorem layer_range_apply (A : ℕ → Matrix (Fin 2) (Fin 2) ℂ) (m : ℕ) (ψ : Wave) (x : ℕ) :
    layer id A (List.range m) ψ x =
      ∑ c ∈ Finset.range (2 ^ m), weight A m x c * ψ (withLow m x c) := by
  induction m generalizing x with
  | zero => simp [layer, weight, withLow]
  | succ m ih =>
    -- the bit of the new qubit joins the low bits in front
    have hterm : ∀ b, ∀ c ∈ Finset.range (2 ^ m),
        weight A (m + 1) x (lowBit m b c) * ψ (withLow (m + 1) x (lowBit m b c)) =
          A m (place (x.testBit m)) (place b) *
            (weight A m (setBit m b x) c * ψ (withLow m (setBit m b x) c)) := by
      intro b c hc
      have hlt := Finset.mem_range.1 hc
      have hweight : weight A m x (lowBit m b c) = weight A m (setBit m b x) c :=
        weight_congr A (fun q hq => by rw [testBit_setBit, if_neg hq.ne])
          fun q hq => by rw [testBit_lowBit hlt, if_pos hq]
      have hbit : (lowBit m b c).testBit m = b := by simp [testBit_lowBit hlt]
      rw [withLow_setBit hlt, weight, Finset.prod_range_succ, hbit, ← weight, hweight]
      ring
    have htop : layer id A [m] = applyAt [m] (A m) := LinearMap.id_comp _
    rw [List.range_succ, layer_append, htop, LinearMap.comp_apply, applyAt_singleton, ih, ih,
      sum_lowBit, Finset.sum_add_distrib, Finset.sum_congr rfl (hterm false),
      Finset.sum_congr rfl (hterm true), ← Finset.mul_sum, ← Finset.mul_sum]
    rfl

/-- A layer keeps a wave in its register. -/
theorem layer_range_eq_zero (A : ℕ → Matrix (Fin 2) (Fin 2) ℂ) {n : ℕ} {ψ : Wave}
    (hψ : ∀ x, 2 ^ n ≤ x → ψ x = 0) {x : ℕ} (hx : 2 ^ n ≤ x) :
    layer id A (List.range n) ψ x = 0 := by
  rw [layer_range_apply]
  exact Finset.sum_eq_zero fun c _ => by rw [hψ _ (two_pow_le_withLow hx c), mul_zero]

/-- Of a sum over all values of the low bits a basis state leaves its own. -/
theorem sum_mul_single_withLow {n m : ℕ} (hm : m < 2 ^ n) (f : ℕ → ℂ) (x : ℕ) :
    ∑ c ∈ Finset.range (2 ^ n), f c * (Pi.single m 1 : Wave) (withLow n x c) =
      if x < 2 ^ n then f m else 0 := by
  by_cases hx : x < 2 ^ n
  · rw [if_pos hx, Finset.sum_eq_single m]
    · rw [withLow_of_lt hx, Pi.single_eq_same, mul_one]
    · intro c _ hc
      rw [withLow_of_lt hx, Pi.single_eq_of_ne hc, mul_zero]
    · exact fun h => absurd (Finset.mem_range.2 hm) h
  · -- beyond the register no value of the low bits leads back into it
    rw [if_neg hx]
    refine Finset.sum_eq_zero fun c _ => ?_
    have hbeyond := two_pow_le_withLow (Nat.le_of_not_lt hx) c
    rw [Pi.single_eq_of_ne (hm.trans_le hbeyond).ne', mul_zero]

/-- What a layer makes of a basis state of its register. -/
theorem layer_range_single (A : ℕ → Matrix (Fin 2) (Fin 2) ℂ) {n m : ℕ} (hm : m < 2 ^ n) (x : ℕ) :
    layer id A (List.range n) (Pi.single m 1) x = if x < 2 ^ n then weight A n x m else 0 := by
  rw [layer_range_apply, sum_mul_single_withLow hm]

theorem weight_eq_pow {A : ℕ → Matrix (Fin 2) (Fin 2) ℂ} {m x c : ℕ} {r : ℂ}
    (h : ∀ q < m, A q (place (x.testBit q)) (place (c.testBit q)) = r) :
    weight A m x c = r ^ m := by
  rw [weight, Finset.prod_congr rfl fun q hq => h q (Finset.mem_range.1 hq), Finset.prod_const,
    Finset.card_range]

end QuantumWorkbench.Register
