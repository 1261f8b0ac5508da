import Mathlib
import QuantumWorkbench.Algorithm.Fourier
import QuantumWorkbench.Proofs.Circuit.Placement
import QuantumWorkbench.Proofs.Gate.Diagonal
import QuantumWorkbench.Proofs.Gate.Inverse
import QuantumWorkbench.Proofs.Simulation

/-!
# Fourier transforms are Fourier transforms

The gates on one qubit put it in superposition and give it a root of unity raised to the number that
the lower qubits spell. Stage by stage the low bits of an index are summed over, and the weights of
the sum are powers of roots of unity; reversing the qubits turns their product into the one power
that the transform has.
-/

namespace QuantumWorkbench.Fourier

open Gate Placement Register
open Complex (I)

/-! ## Roots of unity -/

/-- A root of unity whose order is a power of two. -/
noncomputable def root (n : ℕ) : ℂ := Complex.exp (2 * Real.pi * I / 2 ^ n)

theorem root_one : root 1 = -1 := by
  rw [root, ← Complex.exp_pi_mul_I]
  congr 1
  ring

theorem root_add_pow (n p : ℕ) : root (n + p) ^ 2 ^ p = root n := by
  rw [root, root, ← Complex.exp_nat_mul]
  congr 1
  push_cast
  rw [pow_add]
  field_simp

theorem root_pow_two_pow_of_lt {n m : ℕ} (h : n ≤ m) : root n ^ 2 ^ m = 1 := by
  have hzero : root 0 = 1 := by
    rw [root, pow_zero, div_one, Complex.exp_two_pi_mul_I]
  have hfull : root n ^ 2 ^ n = 1 := by
    have hadd := root_add_pow 0 n
    rwa [Nat.zero_add, hzero] at hadd
  obtain ⟨d, rfl⟩ := Nat.exists_eq_add_of_le h
  rw [Nat.pow_add, pow_mul, hfull, one_pow]

theorem root_succ_pow_two_pow (n : ℕ) : root (n + 1) ^ 2 ^ n = -1 := by
  rw [Nat.add_comm, root_add_pow, root_one]

/-- The bits of a number collect the power that it spells. -/
theorem prod_bitPhase (w : ℂ) (n k : ℕ) :
    ∏ p ∈ Finset.range n, bitPhase (w ^ 2 ^ p) (k.testBit p) = w ^ (k % 2 ^ n) := by
  induction n with
  | zero => rw [Finset.prod_range_zero, pow_zero, Nat.mod_one, pow_zero]
  | succ n ih =>
    rw [Finset.prod_range_succ, ih, mod_two_pow_succ, lowBit, pow_add, mul_comm]
    cases k.testBit n <;> simp

/-! ## Controlled phases -/

theorem spin_controlled (θ : ℝ) (b c : Bool) :
    spin (θ / 2) b * (spin (-(θ / 2)) (c ^^ b) * spin (θ / 2) c) =
      Complex.exp (-(θ / 4) * I) * bitPhase (Complex.exp (θ * I)) (b && c) := by
  simp only [spin]
  rw [← Complex.exp_add, ← Complex.exp_add]
  -- with both bits at one the three angles add up, otherwise two of them cancel
  cases b <;> cases c
  case true.true =>
    rw [Bool.and_self, bitPhase_true, ← Complex.exp_add]
    congr 1
    simp
    ring
  all_goals
    simp only [Bool.and_false, Bool.and_true, bitPhase_false, mul_one]
    congr 1
    simp
    ring

theorem effect_controlledPhase {c t : ℕ} (h : c ≠ t) (θ : ℝ) :
    effect (controlledPhase c t θ) = phases fun x => Complex.exp (-(θ / 4) * I) *
      bitPhase (Complex.exp (θ * I)) (x.testBit c && x.testBit t) := by
  have hspin : ∀ q (angle : ℝ), (turn .rz q angle : Placement ℝ).made.operator =
      phases fun x => spin angle (x.testBit q) := fun q angle => by
    rw [operator_made_turn rfl rfl, turnAt_z]
  have hhalf : Scalar.half (-θ) = -(θ / 2) := by rw [Scalar.half_real, neg_div]
  calc effect (controlledPhase c t θ)
      = phases (fun x => spin (θ / 2) (x.testBit c)) ∘ₗ
          ((plain .cnot [c, t]).operator ∘ₗ phases (fun x => spin (-(θ / 2)) (x.testBit t)) ∘ₗ
            (plain .cnot [c, t]).operator) ∘ₗ phases (fun x => spin (θ / 2) (x.testBit t)) := by
        simp only [controlledPhase, effect_cons, effect_nil, hspin, made_of, hhalf,
          Scalar.half_real, LinearMap.id_comp, LinearMap.comp_assoc]
    _ = _ := by
        rw [operator_cnot_phases_cnot h, phases_comp, phases_comp]
        congr 1
        funext x
        rw [testBit_flipIf, if_pos rfl, spin_controlled]

/-! ## One qubit -/

/-- The controls below a bound turn the target by the number that they spell. -/
theorem effect_controls {t m : ℕ} (hm : m ≤ t) : ∃ γ : ℂ, ‖γ‖ = 1 ∧
    effect ((List.range m).reverse.flatMap fun c =>
      controlledPhase c t (Scalar.pi / Scalar.num (1 <<< (t - c)))) =
      phases fun x => γ * bitPhase (root (t + 1) ^ (x % 2 ^ m)) (x.testBit t) := by
  induction m with
  | zero =>
    refine ⟨1, norm_one, ?_⟩
    have hone : ∀ b, bitPhase 1 b = 1 := fun b => by cases b <;> rfl
    simp [Nat.mod_one, hone]
  | succ m ih =>
    obtain ⟨γ, hγ, hrest⟩ := ih (by omega)
    have hangle : (Scalar.pi / Scalar.num (1 <<< (t - m)) : ℝ) = Real.pi / 2 ^ (t - m) := by
      rw [Scalar.pi_real, Scalar.num_real, Nat.one_shiftLeft, Nat.cast_pow, Nat.cast_ofNat]
    -- the angle of the nearest control is the one of its place in the number
    have hroot : Complex.exp ((Real.pi / 2 ^ (t - m) : ℝ) * I) = root (t + 1) ^ 2 ^ m := by
      obtain ⟨d, rfl⟩ := Nat.exists_eq_add_of_le (show m ≤ t by omega)
      rw [show m + d + 1 = d + 1 + m by omega, root_add_pow, root, Nat.add_sub_cancel_left]
      congr 1
      push_cast
      rw [pow_succ]
      field_simp
    have hbits : ∀ x : ℕ, bitPhase (root (t + 1) ^ (x % 2 ^ (m + 1))) (x.testBit t) =
        bitPhase (root (t + 1) ^ (x % 2 ^ m)) (x.testBit t) *
          bitPhase (root (t + 1) ^ 2 ^ m) (x.testBit m && x.testBit t) := fun x => by
      rw [mod_two_pow_succ, lowBit, pow_add]
      cases x.testBit m <;> cases x.testBit t <;> simp [mul_comm]
    refine ⟨γ * Complex.exp (-((Real.pi / 2 ^ (t - m) : ℝ) / 4) * I), ?_, ?_⟩
    · rw [norm_mul, hγ, one_mul, show (-((Real.pi / 2 ^ (t - m) : ℝ) / 4) * I : ℂ) =
        (-((Real.pi / 2 ^ (t - m)) / 4) : ℝ) * I by push_cast; ring, Complex.norm_exp_ofReal_mul_I]
    · rw [List.range_succ, List.reverse_append, List.reverse_singleton, List.singleton_append,
        effect_flatMap_cons, hrest, effect_controlledPhase (by omega), phases_comp, hangle, hroot]
      congr 1
      funext x
      rw [hbits]
      ring

/-- The gates on one qubit spread it out and turn it by the number below it. -/
theorem effect_qubitGates (t : ℕ) : ∃ γ : ℂ, ‖γ‖ = 1 ∧ ∀ ψ x,
    effect (qubitGates t) ψ x = γ * (Scalar.invSqrtTwo : ℝ) *
      (bitPhase (root (t + 1) ^ (x % 2 ^ t)) (x.testBit t) *
        (ψ (setBit t false x) + bitPhase (-1) (x.testBit t) * ψ (setBit t true x))) := by
  obtain ⟨γ, hγ, hcontrols⟩ := effect_controls (le_refl t)
  refine ⟨γ, hγ, fun ψ x => ?_⟩
  rw [qubitGates, effect_cons, hcontrols, LinearMap.comp_apply, phases_apply, made_of, operator_h]
  ring

/-! ## All qubits -/

/-- The weight of a value of the low bits: each bit of the index takes its root of unity to the
value. -/
noncomputable def share (m y c : ℕ) : ℂ :=
  ∏ t ∈ Finset.range m, bitPhase (root (t + 1) ^ c) (y.testBit t)

theorem share_succ (m c : ℕ) (b : Bool) (y : ℕ) :
    share (m + 1) y (lowBit m b c) = share m y c *
      (bitPhase (root (m + 1) ^ c) (y.testBit m) * bitPhase (bitPhase (-1) (y.testBit m)) b) := by
  have hlow : ∀ t ∈ Finset.range m, bitPhase (root (t + 1) ^ lowBit m b c) (y.testBit t) =
      bitPhase (root (t + 1) ^ c) (y.testBit t) := fun t ht => by
    rw [lowBit, pow_add, pow_mul, root_pow_two_pow_of_lt (Finset.mem_range.1 ht), one_pow, one_mul]
  rw [share, Finset.prod_range_succ, Finset.prod_congr rfl hlow, ← share, lowBit, pow_add, pow_mul,
    root_succ_pow_two_pow]
  cases b <;> cases y.testBit m <;> simp

/-- **The stages from a qubit down** sum over the low bits. -/
theorem effect_stages (m : ℕ) : ∃ γ : ℂ, ‖γ‖ = 1 ∧ ∀ ψ y,
    effect ((List.range m).reverse.flatMap qubitGates) ψ y = γ * (Scalar.invSqrtTwo : ℝ) ^ m *
      ∑ c ∈ Finset.range (2 ^ m), share m y c * ψ (withLow m y c) := by
  induction m with
  | zero => exact ⟨1, norm_one, fun ψ y => by simp [share, withLow]⟩
  | succ m ih =>
    obtain ⟨γ, hγ, hrest⟩ := ih
    obtain ⟨δ, hδ, htop⟩ := effect_qubitGates m
    refine ⟨γ * δ, by rw [norm_mul, hγ, hδ, one_mul], fun ψ y => ?_⟩
    -- at the index with its low bits replaced the top qubit sees exactly the replacing number
    have hterm : ∀ c ∈ Finset.range (2 ^ m),
        share m y c * effect (qubitGates m) ψ (withLow m y c) = δ * (Scalar.invSqrtTwo : ℝ) *
          (share (m + 1) y (lowBit m false c) * ψ (withLow (m + 1) y (lowBit m false c)) +
            share (m + 1) y (lowBit m true c) * ψ (withLow (m + 1) y (lowBit m true c))) := by
      intro c hc
      have hlt := Finset.mem_range.1 hc
      have hmod : withLow m y c % 2 ^ m = c := by
        rw [withLow, Nat.mul_add_mod, Nat.mod_eq_of_lt hlt]
      have hbit : (withLow m y c).testBit m = y.testBit m := by
        rw [testBit_withLow hlt, if_neg (lt_irrefl m)]
      rw [htop, hmod, hbit, setBit_withLow hlt, setBit_withLow hlt, share_succ, share_succ,
        bitPhase_false, bitPhase_true]
      ring
    rw [List.range_succ, List.reverse_append, List.reverse_singleton, List.singleton_append,
      effect_flatMap_cons, LinearMap.comp_apply, hrest, Finset.sum_congr rfl hterm,
      ← Finset.mul_sum, ← sum_lowBit m fun c => share (m + 1) y c * ψ (withLow (m + 1) y c)]
    ring

/-! ## Reversal -/

/-- The exchanges reverse the qubits of a register. -/
theorem effect_reversal (n : ℕ) : ∃ f : ℕ → ℕ, effect (reversal n) = LinearMap.funLeft ℂ ℂ f ∧
    ∀ x p, (f x).testBit p = x.testBit (if p < n then n - 1 - p else p) := by
  have hstep : ∀ k ≤ n / 2, ∃ f : ℕ → ℕ,
      effect ((List.range k).map fun q => .of .swap [q, n - 1 - q]) = LinearMap.funLeft ℂ ℂ f ∧
      ∀ x p, (f x).testBit p =
        x.testBit (if p < k ∨ p < n ∧ n - 1 - p < k then n - 1 - p else p) := by
    intro k hk
    induction k with
    | zero => exact ⟨id, rfl, fun x p => by simp⟩
    | succ k ih =>
      obtain ⟨f, hf, hbits⟩ := ih (by omega)
      refine ⟨f ∘ exchangeBits k (n - 1 - k), ?_, fun x p => ?_⟩
      · rw [List.range_succ, List.map_append, effect_append, hf, List.map_singleton, effect_of,
          operator_swap (by omega)]
        rfl
      · rw [Function.comp_apply, hbits, exchangeBits, testBit_setBit, testBit_setBit]
        grind
  obtain ⟨f, hf, hbits⟩ := hstep (n / 2) le_rfl
  refine ⟨f, hf, fun x p => ?_⟩
  rw [hbits]
  -- only the middle qubit is left in place, and it is its own reverse
  congr 1
  split <;> split <;> omega

/-! ## The transform -/

/-- The gates of the transform. -/
def gates {α : Type} [Scalar α] (n : ℕ) : List (Placement α) :=
  (List.range n).reverse.flatMap qubitGates ++ reversal n

/-- What the transform makes of a basis state. -/
noncomputable def transformed (n x : ℕ) : Wave := fun k =>
  if k < 2 ^ n then ((2 : ℝ) ^ (-(n : ℝ) / 2) : ℝ) * Complex.exp (2 * Real.pi * I * (x * k) / 2 ^ n)
  else 0

theorem invSqrtTwo_pow (n : ℕ) : (Scalar.invSqrtTwo : ℝ) ^ n = (2 : ℝ) ^ (-(n : ℝ) / 2) := by
  have hbase : (Scalar.invSqrtTwo : ℝ) = (2 : ℝ) ^ (-(1 / 2) : ℝ) := by
    rw [Scalar.invSqrtTwo_real, Real.rpow_neg two_pos.le, ← Real.sqrt_eq_rpow, Real.sqrt_div_self',
      one_div]
  rw [hbase, ← Real.rpow_natCast, ← Real.rpow_mul two_pos.le]
  congr 1
  ring

/-- The weights of the stages at a reversed index are one power of one root. -/
theorem share_reversed {n x y k : ℕ} (hk : k < 2 ^ n)
    (hbits : ∀ p < n, y.testBit p = k.testBit (n - 1 - p)) : share n y x = root n ^ (x * k) := by
  have hroot : ∀ p ∈ Finset.range n,
      bitPhase (root (n - 1 - p + 1) ^ x) (y.testBit (n - 1 - p)) =
        bitPhase ((root n ^ x) ^ 2 ^ p) (k.testBit p) := by
    intro p hp
    have hlt := Finset.mem_range.1 hp
    have hdrop : root (n - 1 - p + 1) = root n ^ 2 ^ p := by
      rw [← root_add_pow (n - 1 - p + 1) p]
      congr 2
      omega
    rw [hbits _ (by omega), hdrop, ← pow_mul, ← pow_mul, mul_comm]
    congr 2
    omega
  rw [share, ← Finset.prod_range_reflect, Finset.prod_congr rfl hroot, prod_bitPhase,
    Nat.mod_eq_of_lt hk, pow_mul]

/-- **The gates of the transform** make its image of every basis state, up to one phase. -/
theorem effect_gates (n : ℕ) : ∃ γ : ℂ, ‖γ‖ = 1 ∧
    ∀ x < 2 ^ n, effect (gates n) (Pi.single x 1) = γ • transformed n x := by
  obtain ⟨γ, hγ, hstages⟩ := effect_stages n
  obtain ⟨f, hf, hbits⟩ := effect_reversal n
  refine ⟨γ, hγ, fun x hx => funext fun k => ?_⟩
  have hlow : ∀ p < n, (f k).testBit p = k.testBit (n - 1 - p) := fun p hp => by
    rw [hbits, if_pos hp]
  have hhigh : f k < 2 ^ n ↔ k < 2 ^ n := lt_two_pow_congr fun p hp => by
    rw [hbits, if_neg (by omega)]
  rw [gates, effect_append, hf, LinearMap.comp_apply, LinearMap.funLeft_apply, hstages,
    sum_mul_single_withLow hx, Pi.smul_apply, smul_eq_mul, transformed]
  by_cases hk : k < 2 ^ n
  · rw [if_pos (hhigh.2 hk), if_pos hk, share_reversed hk hlow, root, ← Complex.exp_nat_mul,
      ← Complex.ofReal_pow, invSqrtTwo_pow, mul_assoc]
    congr 3
    push_cast
    ring
  · rw [if_neg (mt hhigh.1 hk), if_neg hk, mul_zero, mul_zero]

/-! ## The circuits -/

theorem fitsIn_gates {n : ℕ} : ∀ p ∈ (gates n : List (Placement ℝ)), p.FitsIn n := by
  intro p hp
  rcases List.mem_append.1 hp with hp | hp
  · obtain ⟨t, ht, hp⟩ := List.mem_flatMap.1 hp
    have htn : t < n := List.mem_range.1 (List.mem_reverse.1 ht)
    rcases List.mem_cons.1 hp with rfl | hp
    · exact fitsIn_one rfl htn
    · obtain ⟨c, hc, hp⟩ := List.mem_flatMap.1 hp
      have hct : c < t := List.mem_range.1 (List.mem_reverse.1 hc)
      simp only [controlledPhase, List.mem_cons, List.not_mem_nil, or_false] at hp
      rcases hp with rfl | rfl | rfl | rfl | rfl
      · exact fitsIn_turn rfl htn _
      · exact fitsIn_two rfl hct.ne (by omega) htn
      · exact fitsIn_turn rfl htn _
      · exact fitsIn_two rfl hct.ne (by omega) htn
      · exact fitsIn_turn rfl (by omega) _
  · obtain ⟨q, hq, rfl⟩ := List.mem_map.1 hp
    have hhalf : q < n / 2 := List.mem_range.1 hq
    exact fitsIn_two rfl (by omega) (by omega) (by omega)

/-- The circuit of the transform. -/
noncomputable def forward (n : ℕ) : Circuit ℝ :=
  (Circuit.blank n n).appendGates ((gates n).map made)

/-- The circuit that undoes it. -/
noncomputable def backward (n : ℕ) : Circuit ℝ :=
  (forward n).withGates ((forward n).gates.reverse.map Gate.inverse)

theorem built_forward (n : ℕ) : (forward n).Built := Circuit.builtIn_map_made fitsIn_gates

theorem built_backward (n : ℕ) : (backward n).Built := by
  intro g hg
  obtain ⟨a, ha, rfl⟩ := List.mem_map.1 hg
  exact (built_forward n a (List.mem_reverse.1 ha)).inverse

theorem backward_forward (n : ℕ) :
    operatorAll (backward n).gates ∘ₗ operatorAll (forward n).gates = LinearMap.id :=
  undo_effect fitsIn_gates

section

variable {n : ℕ} (hn : 0 < n)
include hn

theorem circuit_of_storage (hstorage : Storage.holdsPairs n = true) :
    circuit n = .ok (forward n) := by
  rw [circuit, if_neg hn.ne', Circuit.checkRegister_eq_ok_iff.2 hstorage]
  exact Circuit.build_of_fitsIn n fitsIn_gates

theorem inverseCircuit_of_storage (hstorage : Storage.holdsPairs n = true) :
    inverseCircuit n = .ok (backward n) := by
  rw [inverseCircuit, circuit_of_storage hn hstorage]
  rfl

theorem circuit_of_no_storage (hstorage : Storage.holdsPairs n = false) :
    (circuit n : Except (TaskError ℝ) (Circuit ℝ)) = .error (.circuit (.noStorage n)) := by
  rw [circuit, if_neg hn.ne', Circuit.checkRegister_of_no_storage hstorage]
  rfl

end

/-- **The transform on every register.** A register that cannot be stored is refused. On any other
the circuit maps every basis state to its Fourier transform, up to a phase that is the same for all
of them, and the inverse circuit brings it back exactly; and so do the two circuits on the vectors
of a simulated register. -/
theorem circuit_transforms (n : ℕ) (hn : 0 < n) :
    (Storage.holdsPairs n = false →
      (circuit n : Except (TaskError ℝ) (Circuit ℝ)) = .error (.circuit (.noStorage n)) ∧
      (inverseCircuit n : Except (TaskError ℝ) (Circuit ℝ)) = .error (.circuit (.noStorage n))) ∧
    (Storage.holdsPairs n = true → ∃ c c' : Circuit ℝ,
      circuit n = .ok c ∧ inverseCircuit n = .ok c' ∧ c.width = n ∧ c'.width = n ∧
      operatorAll c'.gates ∘ₗ operatorAll c.gates = LinearMap.id ∧
      ∃ γ : ℂ, ‖γ‖ = 1 ∧ ∀ x < 2 ^ n,
        operatorAll c.gates (Pi.single x 1) = γ • transformed n x ∧
        (n < 64 →
          wave (actAll c.gates (StateVector.basis n x).amplitudes) = γ • transformed n x ∧
          actAll c'.gates (actAll c.gates (StateVector.basis n x).amplitudes) =
            (StateVector.basis n x).amplitudes)) := by
  refine ⟨fun hstorage => ?_, fun hstorage => ?_⟩
  · have hrefused := circuit_of_no_storage hn hstorage
    exact ⟨hrefused, by rw [inverseCircuit, hrefused]; rfl⟩
  · obtain ⟨γ, hγ, htransform⟩ := effect_gates n
    refine ⟨forward n, backward n, circuit_of_storage hn hstorage,
      inverseCircuit_of_storage hn hstorage, rfl, rfl, backward_forward n, γ, hγ,
      fun x hx => ⟨htransform x hx, fun hword => ?_⟩⟩
    -- a vector of the register is what its wave is
    have hsize := size_basis hword x
    have hbasis := wave_basis (show x < Qubit.dimension n by rwa [dimension_eq hword])
    obtain ⟨hsizeForth, hforth⟩ := wave_actAll hword (built_forward n) hsize
    obtain ⟨hsizeBack, hback⟩ := wave_actAll hword (built_backward n) hsizeForth
    refine ⟨hforth.trans (by rw [hbasis]; exact htransform x hx),
      eq_of_wave hsizeBack hsize (hback.trans ?_)⟩
    rw [hforth]
    exact LinearMap.congr_fun (backward_forward n) _

/-- The transform of three qubits, at the basis state five. -/
theorem circuit_transforms_three : 0 < 3 ∧ ∃ c c' : Circuit ℝ,
    circuit 3 = .ok c ∧ inverseCircuit 3 = .ok c' ∧ ∃ γ : ℂ, ‖γ‖ = 1 ∧
      wave (actAll c.gates (StateVector.basis 3 5).amplitudes) = γ • transformed 3 5 ∧
      actAll c'.gates (actAll c.gates (StateVector.basis 3 5).amplitudes) =
        (StateVector.basis 3 5).amplitudes := by
  obtain ⟨c, c', hc, hc', -, -, -, γ, hγ, h⟩ := (circuit_transforms 3 (by decide)).2 rfl
  exact ⟨by decide, c, c', hc, hc', γ, hγ, (h 5 (by decide)).2 (by decide)⟩

end QuantumWorkbench.Fourier
