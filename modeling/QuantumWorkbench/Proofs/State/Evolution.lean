import Mathlib
import QuantumWorkbench.Proofs.Gate.Fidelity
import QuantumWorkbench.Proofs.Register.Access
import QuantumWorkbench.Proofs.Simulation

/-!
# Evolution of a state

What a gate does to the vector of a register, said in full: the new amplitude at every index, the
accesses by which it comes about, and the length that a unitary gate keeps. From the length that one
gate keeps follows the length that a circuit keeps, so that the states of circuits of unitary gates
have length one.
-/

namespace QuantumWorkbench

open Gate Register

namespace Gate

/-- A gate of a register: its qubits are distinct and lie in the register, and its matrix has a row
for each of their values. -/
structure LiesIn {α : Type} [Scalar α] (n : ℕ) (g : Gate α) : Prop where
  nodup : g.qubits.Nodup
  inside : ∀ q ∈ g.qubits, q < n
  dim : g.matrix.dim = 2 ^ g.qubits.length

/-- Constructed gates are gates of their register. -/
theorem BuiltIn.liesIn {n : ℕ} (hn : n < 64) {g : Gate ℝ} (hg : g.BuiltIn n) : g.LiesIn n :=
  ⟨hg.built.wellFormed.nodup, hg.inside, hg.dim_matrix hn⟩

end Gate

/-! ## Length -/

/-- The length of a state is that of its vector. -/
theorem StateVector.norm_eq {n : ℕ} {s : StateVector ℝ} (hsize : s.amplitudes.size = 2 ^ n) :
    s.norm = ‖vector n (wave s.amplitudes)‖ := by
  have hweights : s.weights = List.ofFn fun x : Fin (2 ^ n) =>
      Complex.normSq (wave s.amplitudes x) := by
    apply List.ext_getElem (by simp [weights, hsize])
    intro x hx hx'
    have hlt : x < s.amplitudes.size := by simpa [weights] using hx
    simp [weights, wave, Array.getD, hlt, Amplitude.probability, Complex.normSq_apply]
  rw [StateVector.norm, Scalar.sum_real, hweights, List.sum_ofFn, EuclideanSpace.norm_eq]
  simp only [vector_apply, Complex.sq_norm]
  rfl

theorem StateVector.norm_measured {n : ℕ} {v : Array (Amplitude ℝ)} (hsize : v.size = 2 ^ n)
    (width : ℕ) : (measured v width).norm = ‖vector n (wave v)‖ :=
  norm_eq (s := measured v width) hsize

namespace Gate

variable {n : ℕ} (hn : n < 64)
include hn

/-- **The step**: a unitary gate of a register keeps the length of its vector. -/
theorem norm_wave_act {g : Gate ℝ} (hg : g.LiesIn n) (hu : g.IsUnitary)
    {v : Array (Amplitude ℝ)} (hsize : v.size = 2 ^ n) :
    ‖vector n (wave (g.act v))‖ = ‖vector n (wave v)‖ := by
  rw [wave_act hg.nodup hg.inside hn hg.dim hsize]
  exact norm_applyAt hg.nodup hg.inside hu _

/-- **The run**: unitary gates of a register keep the length of its vector. -/
theorem norm_wave_actAll {gs : List (Gate ℝ)} (hgs : ∀ g ∈ gs, g.LiesIn n ∧ g.IsUnitary)
    {v : Array (Amplitude ℝ)} (hsize : v.size = 2 ^ n) :
    ‖vector n (wave (actAll gs v))‖ = ‖vector n (wave v)‖ := by
  induction gs generalizing v with
  | nil => rfl
  | cons g gs ih =>
    obtain ⟨⟨hg, hu⟩, hgs⟩ := List.forall_mem_cons.1 hgs
    have hrest := ih hgs (v := g.act v) ((size_act g v).trans hsize)
    exact hrest.trans (norm_wave_act hn hg hu hsize)

end Gate

/-- The state of a circuit of unitary gates has length one. -/
theorem Circuit.norm_state {c : Circuit ℝ}
    (hgates : ∀ g ∈ c.gates, g.LiesIn c.width ∧ g.IsUnitary) {limit : ℕ}
    (hword : c.width < 64 ∨ limit < 64) (hsimulated : c.simulated limit = true) :
    ∃ s, c.state limit = .ok s ∧ s.norm = 1 := by
  have hn := width_lt_of_simulated hword hsimulated
  have hstate := state_of_inside (fun g hg => (hgates g hg).1.inside) hn hsimulated
  have hsize := size_basis hn 0
  refine ⟨_, hstate, ?_⟩
  rw [StateVector.norm_measured ((size_actAll _ _).trans hsize), norm_wave_actAll hn hgates hsize,
    wave_basis_zero, norm_startWave]

/-! ## The whole evolution -/

/-- **A gate acts as the operator of its matrix on the whole register.** The new amplitude at an
index sums over the columns of the matrix: the row is what the index has at the qubits of the gate,
the first one most significant, and each entry meets the old amplitude at the index that has the
column there instead. Every place is written once, and only old amplitudes are read. Without
rounding a unitary gate keeps the length of the vector; hence the simulation of a circuit of unitary
gates, unless it refuses the register, returns a state of length one. The entries of a vector are
counted by a word of 64 bits, whence the bound on the width. -/
theorem act_eq_operator :
    (∀ {α : Type} [Scalar α] {n : ℕ} {g : Gate α} {v : Array (Amplitude α)}, n < 64 →
      g.LiesIn n → v.size = 2 ^ n →
      (g.act v).size = 2 ^ n ∧
      (∀ x < 2 ^ n, (g.act v)[x]? = some (Amplitude.sum
        ((List.range (2 ^ g.qubits.length)).map fun col =>
          g.matrix.entry (bitsAt g.qubits x) col * v.getD (putBits g.qubits col x) 0))) ∧
      (g.actLogged v).1 = g.act v ∧
      Access.Leads v (g.actLogged v).2 (g.act v) ∧
      ((g.actLogged v).2.filterMap Access.written?).Perm (List.range (2 ^ n)) ∧
      (∀ place z, .read place z ∈ (g.actLogged v).2 → z = v.getD place 0) ∧
      ∀ place z, .write place z ∈ (g.actLogged v).2 → (g.act v)[place]? = some z) ∧
    (∀ {n : ℕ} {g : Gate ℝ} {s : StateVector ℝ}, n < 64 → g.LiesIn n → g.IsUnitary →
      s.amplitudes.size = 2 ^ n → (StateVector.measured (g.act s.amplitudes) s.width).norm = s.norm) ∧
    ∀ {c : Circuit ℝ} {limit : ℕ}, (∀ g ∈ c.gates, g.LiesIn c.width ∧ g.IsUnitary) →
      c.width < 64 ∨ limit < 64 → c.simulated limit = true →
      ∃ s, c.state limit = .ok s ∧ s.norm = 1 := by
  refine ⟨?operator, ?length, ?circuit⟩
  case operator =>
    intro α _ n g v hn hg hsize
    have hnew : ∀ x < 2 ^ n, (g.act v)[x]? = some (newAmplitude g.qubits g.matrix v x) := by
      intro x hx
      have hlt : x < (g.act v).size := by rwa [size_act, hsize]
      rw [← getD_act hg.nodup hg.inside hn hsize hg.dim hx]
      simp [Array.getD, hlt]
    obtain ⟨hleads, hwritten, haccess⟩ := actLogged_spec hg.nodup hg.inside hn hg.dim hsize
    refine ⟨(size_act g v).trans hsize, fun x hx => ?_, fst_actLogged g v, hleads, hwritten,
      fun place z => (haccess place z).1, fun place z h => ?_⟩
    · rw [hnew x hx, newAmplitude_eq_sum]
    -- what is written is written to a place of the register, whose new amplitude is known
    · have hplace : place ∈ (g.actLogged v).2.filterMap Access.written? :=
        List.mem_filterMap.2 ⟨_, h, rfl⟩
      rw [(haccess place z).2 h, hnew place (List.mem_range.1 (hwritten.mem_iff.1 hplace))]
  case length =>
    intro n g s hn hg hu hsize
    rw [StateVector.norm_measured ((size_act g _).trans hsize), norm_wave_act hn hg hu hsize,
      StateVector.norm_eq hsize]
  case circuit =>
    intro c limit hgates hword hsimulated
    exact c.norm_state hgates hword hsimulated

/-- A superposition of qubit 2, which then controls qubit 0. -/
noncomputable def entangling : Circuit ℝ :=
  (Circuit.blank 3 0).appendGates [plain .h [2], plain .cnot [2, 0]]

theorem built_entangling : entangling.Built := by
  simp only [Circuit.Built, entangling, Circuit.appendGates, Circuit.blank, List.nil_append,
    List.forall_mem_cons, List.not_mem_nil, false_implies, implies_true, and_true]
  exact ⟨⟨built_plain rfl rfl, by decide⟩, ⟨built_plain rfl rfl, by decide⟩⟩

/-- At index 5 the qubits 2 and 0 spell the last row, and the columns stand at indices 0, 1, 4
and 5. -/
theorem act_eq_operator_entangling : (plain .cnot [2, 0] : Gate ℝ).LiesIn 3 ∧
    (∀ v : Array (Amplitude ℝ), v.size = 2 ^ 3 →
      let m := (plain .cnot [2, 0] : Gate ℝ).matrix
      ((plain .cnot [2, 0]).act v)[5]? = some (Amplitude.sum [m.entry 3 0 * v.getD 0 0,
        m.entry 3 1 * v.getD 1 0, m.entry 3 2 * v.getD 4 0, m.entry 3 3 * v.getD 5 0])) ∧
    entangling.simulated 24 = true ∧ ∃ s, entangling.state 24 = .ok s ∧ s.norm = 1 := by
  have hn : 3 < 64 := by decide
  have hgates : ∀ g ∈ entangling.gates, g.LiesIn 3 ∧ g.IsUnitary := by
    intro g hg
    have hbuilt := built_entangling g hg
    refine ⟨hbuilt.liesIn hn, hbuilt.isUnitary hn ?_⟩
    rcases List.mem_pair.1 hg with rfl | rfl <;> decide
  have hcnot := (hgates _ (List.mem_pair.2 (.inr rfl))).1
  have hsimulated : entangling.simulated 24 = true := by decide
  refine ⟨hcnot, fun v hsize => ?_, hsimulated, ?_⟩
  · exact (act_eq_operator.1 hn hcnot hsize).2.1 5 (by decide)
  · exact act_eq_operator.2.2 hgates (.inl hn) hsimulated

end QuantumWorkbench
