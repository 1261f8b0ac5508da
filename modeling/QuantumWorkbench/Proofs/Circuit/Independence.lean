import Mathlib
import QuantumWorkbench.Proofs.Gate.Fidelity
import QuantumWorkbench.Proofs.Gate.Renaming
import QuantumWorkbench.Proofs.Register.Product
import QuantumWorkbench.Proofs.Simulation

/-!
# Circuits side by side

Two circuits can share a register: one stays on the low qubits, the other is moved up past them, and
their gates come in any order that keeps the order of each. The main statement says that the shared
register then ends in the product of the two states, whatever the order, so neither circuit notices
the other.
-/

namespace QuantumWorkbench

open Gate Register

/-! ## Interleavings -/

/-- A list that is made of two others, each of which keeps its order. -/
inductive Interleaves {β : Type} : List β → List β → List β → Prop where
  | nil : Interleaves [] [] []
  | first {x xs ys zs} (h : Interleaves xs ys zs) : Interleaves (x :: xs) ys (x :: zs)
  | second {y xs ys zs} (h : Interleaves xs ys zs) : Interleaves xs (y :: ys) (y :: zs)

/-- Whatever holds of all items of both lists holds of all items of the third. -/
theorem Interleaves.forall_mem {β : Type} {xs ys zs : List β} (h : Interleaves xs ys zs)
    {P : β → Prop} (hxs : ∀ x ∈ xs, P x) (hys : ∀ y ∈ ys, P y) : ∀ z ∈ zs, P z := by
  induction h with
  | nil => exact hxs
  | first _ ih =>
    obtain ⟨hx, hxs⟩ := List.forall_mem_cons.1 hxs
    exact List.forall_mem_cons.2 ⟨hx, ih hxs hys⟩
  | second _ ih =>
    obtain ⟨hy, hys⟩ := List.forall_mem_cons.1 hys
    exact List.forall_mem_cons.2 ⟨hy, ih hxs hys⟩

namespace Gate

variable {m : ℕ}

/-! ## Gates on one of two registers -/

theorem operator_productWave_low {g : Gate ℝ} (hg : ∀ q ∈ g.qubits, q < m) (φ ψ : Wave) :
    g.operator (productWave m φ ψ) = productWave m (g.operator φ) ψ :=
  applyAt_productWave_low hg (localMatrix g) φ ψ

theorem operator_productWave_high (g : Gate ℝ) (φ ψ : Wave) :
    (g.rename (· + m)).operator (productWave m φ ψ) = productWave m φ (g.operator ψ) := by
  have hqubits : (g.rename (· + m)).qubits = g.qubits.map (· + m) := rfl
  rw [operator_eq hqubits, matrix_rename]
  exact applyAt_productWave_high g.qubits (fun i j => (g.matrix.entry i j).toComplex) φ ψ

/-- **Interleaved gates on two registers** do to each factor what its own gates do. -/
theorem operatorAll_productWave {as bs cs : List (Gate ℝ)}
    (h : Interleaves as (bs.map (rename (· + m))) cs) (has : ∀ g ∈ as, ∀ q ∈ g.qubits, q < m)
    (φ ψ : Wave) : operatorAll cs (productWave m φ ψ) =
      productWave m (operatorAll as φ) (operatorAll bs ψ) := by
  -- the induction is on the interleaving, one gate of either circuit at a time
  generalize hmoved : bs.map (rename (· + m)) = moved at h
  induction h generalizing bs φ ψ with
  | nil =>
    rw [List.map_eq_nil_iff.1 hmoved]
    rfl
  | @first g as moved cs _ ih =>
    obtain ⟨hg, has⟩ := List.forall_mem_cons.1 has
    calc operatorAll (g :: cs) (productWave m φ ψ)
        = operatorAll cs (productWave m (g.operator φ) ψ) := by
          rw [← operator_productWave_low hg]
          rfl
      _ = productWave m (operatorAll (g :: as) φ) (operatorAll bs ψ) := ih has _ _ hmoved
  | @second h as moved cs _ ih =>
    obtain ⟨g, gs, rfl, rfl, rfl⟩ := List.map_eq_cons_iff.1 hmoved
    calc operatorAll (g.rename (· + m) :: cs) (productWave m φ ψ)
        = operatorAll cs (productWave m φ (g.operator ψ)) := by
          rw [← operator_productWave_high]
          rfl
      _ = productWave m (operatorAll as φ) (operatorAll (g :: gs) ψ) := ih has _ _ rfl

theorem BuiltIn.mono {n n' : ℕ} (h : n ≤ n') {g : Gate ℝ} (hg : g.BuiltIn n) : g.BuiltIn n' :=
  ⟨hg.built, fun q hq => (hg.inside q hq).trans_le h⟩

/-- A gate that is moved up lies in the register above. -/
theorem BuiltIn.moveUp {n : ℕ} {g : Gate ℝ} (hg : g.BuiltIn n) (m : ℕ) :
    (g.rename (· + m)).BuiltIn (m + n) := by
  refine ⟨hg.built.rename (add_left_injective m), fun q hq => ?_⟩
  obtain ⟨p, hp, rfl⟩ := List.mem_map.1 hq
  have := hg.inside p hp
  omega

end Gate

/-- Two registers start in the product of their starts. -/
theorem productWave_startWave (m : ℕ) : productWave m startWave startWave = startWave := by
  funext x
  have hzero : x % 2 ^ m = 0 ∧ x / 2 ^ m = 0 ↔ x = 0 := by
    refine ⟨fun h => ?_, fun h => by simp [h]⟩
    rw [← Nat.div_add_mod x (2 ^ m), h.1, h.2, Nat.mul_zero]
  simp only [productWave, startWave, Pi.single_apply, ite_mul, one_mul, zero_mul, ← ite_and, hzero]

namespace Circuit

/-- A register within one that is simulated is simulated too. -/
theorem simulated_mono {c c' : Circuit ℝ} (h : c'.width ≤ c.width) (hn : c.width < 64) {limit : ℕ}
    (hsimulated : c.simulated limit = true) : c'.simulated limit = true := by
  simp only [simulated, Storage.holdsPairs, Storage.holds, Bool.and_eq_true, decide_eq_true_eq,
    dimension_eq hn, dimension_eq (h.trans_lt hn)] at hsimulated ⊢
  have hpow : 2 ^ c'.width ≤ 2 ^ c.width := Nat.pow_le_pow_right two_pos h
  omega

/-- **Independent circuits end in a product state.** Gates of two circuits that are interleaved on
one register, those of the second moved past the first, lie in it. If the simulation refuses the
register, it is for its width alone; otherwise all three circuits are simulated, and the state of
the shared register, with its measures, is the product of the other two, the first circuit's on the
low qubits. -/
theorem state_of_interleaves {a b c : Circuit ℝ} (ha : a.Built) (hb : b.Built)
    (hwidth : c.width = a.width + b.width)
    (hgates : Interleaves a.gates (b.gates.map (rename (· + a.width))) c.gates) {limit : ℕ}
    (hword : c.width < 64 ∨ limit < 64) :
    c.Built ∧
    (c.simulated limit = false → c.state limit =
      .error (if limit < c.width then .tooWide c.width limit else .noStorage c.width)) ∧
    (c.simulated limit = true → ∃ s t, a.state limit = .ok s ∧ b.state limit = .ok t ∧
      c.state limit = .ok (t.tensor s)) := by
  have hlow : ∀ g ∈ a.gates, g.BuiltIn c.width := fun g hg => (ha g hg).mono (by omega)
  have hhigh : ∀ g ∈ b.gates.map (rename (· + a.width)), g.BuiltIn c.width := by
    intro g hg
    obtain ⟨moved, hmoved, rfl⟩ := List.mem_map.1 hg
    exact hwidth ▸ (hb moved hmoved).moveUp a.width
  have hc : c.Built := hgates.forall_mem hlow hhigh
  refine ⟨hc, state_of_not_simulated, fun hsimulated => ?_⟩
  have hn := width_lt_of_simulated hword hsimulated
  obtain ⟨s, hs, hsizeS, hwaveS⟩ :=
    state_of_built ha (by omega) (simulated_mono (by omega) hn hsimulated)
  obtain ⟨t, ht, hsizeT, hwaveT⟩ :=
    state_of_built hb (by omega) (simulated_mono (by omega) hn hsimulated)
  obtain ⟨u, hu, hsizeU, hwaveU⟩ := state_of_built hc hn hsimulated
  refine ⟨_, _, hs, ht, hu.trans ?_⟩
  -- the product has the size and the wave of the shared register
  have hsize : ((StateVector.measured t b.width).tensor
      (.measured s a.width)).amplitudes.size = 2 ^ c.width := by
    rw [size_tensor, hwidth, Nat.add_comm, Nat.pow_add]
    exact congrArg₂ (· * ·) hsizeT hsizeS
  have hwave : wave u = wave ((StateVector.measured t b.width).tensor
      (.measured s a.width)).amplitudes := by
    rw [wave_tensor hsizeS, hwaveU, ← productWave_startWave a.width,
      operatorAll_productWave hgates fun g hg => (ha g hg).inside, ← hwaveS, ← hwaveT]
    rfl
  have hindex : Index.wrap (b.width + a.width) = c.width := by
    rw [hwidth, Nat.add_comm, Index.wrap]
    exact Nat.mod_eq_of_lt ((hwidth ▸ hn).trans (by decide))
  rw [eq_of_wave hsizeU hsize hwave, StateVector.tensor, ← hindex]
  rfl

/-- Two qubits are entangled. -/
noncomputable def lower : Circuit ℝ :=
  (blank 2 0).appendGates [plain .h [0], plain .cnot [0, 1]]

/-- One of two qubits is negated, and the two are exchanged. -/
noncomputable def upper : Circuit ℝ :=
  (blank 2 0).appendGates [plain .x [1], plain .swap [0, 1]]

/-- Both circuits on four qubits, in turn. -/
noncomputable def shared : Circuit ℝ :=
  (blank 4 0).appendGates
    [plain .x [3], plain .h [0], plain .swap [2, 3], plain .cnot [0, 1]]

theorem state_of_interleaves_shared : lower.Built ∧ upper.Built ∧
    shared.width = lower.width + upper.width ∧
    Interleaves lower.gates (upper.gates.map (rename (· + lower.width))) shared.gates ∧
    ∃ s t, lower.state 24 = .ok s ∧ upper.state 24 = .ok t ∧
      shared.state 24 = .ok (t.tensor s) := by
  have hlower : lower.Built := by
    simp only [Built, lower, appendGates, blank, List.nil_append, List.forall_mem_cons,
      List.not_mem_nil, false_implies, implies_true, and_true]
    exact ⟨⟨built_plain rfl rfl, by decide⟩, ⟨built_plain rfl rfl, by decide⟩⟩
  have hupper : upper.Built := by
    simp only [Built, upper, appendGates, blank, List.nil_append, List.forall_mem_cons,
      List.not_mem_nil, false_implies, implies_true, and_true]
    exact ⟨⟨built_plain rfl rfl, by decide⟩, ⟨built_plain rfl rfl, by decide⟩⟩
  have hgates : Interleaves lower.gates (upper.gates.map (rename (· + lower.width)))
      shared.gates := .second (.first (.second (.first .nil)))
  obtain ⟨-, -, hstates⟩ :=
    state_of_interleaves hlower hupper rfl hgates (Or.inr (show 24 < 64 by decide))
  exact ⟨hlower, hupper, rfl, hgates, hstates rfl⟩

end Circuit

end QuantumWorkbench
