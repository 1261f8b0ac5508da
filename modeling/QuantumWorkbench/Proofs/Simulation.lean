import Mathlib
import QuantumWorkbench.Proofs.Gate.Operator
import QuantumWorkbench.State.Simulation

/-!
# What the simulation of a circuit returns

On constructed gates the simulation refuses a register that is too wide or that cannot be stored,
and nothing else. The state it returns is the operator of the gates applied to the first basis
vector.
-/

namespace QuantumWorkbench

open Gate Register

/-! ## The start -/

/-- The wave of the state with every qubit at zero. -/
noncomputable def startWave : Register.Wave := Pi.single 0 1

theorem wave_basis {n x : ℕ} (hx : x < Qubit.dimension n) :
    wave (StateVector.basis n x : StateVector ℝ).amplitudes = Pi.single x 1 := by
  funext y
  by_cases hy : y = x
  · subst hy
    simp [wave, StateVector.basis, Array.getD, Nat.mod_eq_of_lt hx, hx]
  · have hzero : (StateVector.basis n x : StateVector ℝ).amplitudes.getD y 0 = 0 := by
      simp only [StateVector.basis, Array.getD_eq_getD_getElem?, Nat.mod_eq_of_lt hx,
        Array.getElem?_setIfInBounds, if_neg (Ne.symm hy), Array.getElem?_replicate]
      split <;> rfl
    rw [wave, hzero, Pi.single_eq_of_ne hy]
    rfl

theorem wave_basis_zero (n : ℕ) :
    wave (StateVector.basis n 0 : StateVector ℝ).amplitudes = startWave := by
  have hpos : 0 < Qubit.dimension n := by
    rw [Qubit.dimension, Nat.one_shiftLeft]
    exact Nat.two_pow_pos _
  exact wave_basis hpos

theorem StateVector.size_amplitudes_basis {α : Type} [Scalar α] (n x : ℕ) :
    (basis n x : StateVector α).amplitudes.size = Qubit.dimension n := by
  simp [basis]

theorem size_basis {n : ℕ} (hn : n < 64) (x : ℕ) :
    (StateVector.basis n x : StateVector ℝ).amplitudes.size = 2 ^ n := by
  rw [StateVector.size_amplitudes_basis, dimension_eq hn]

theorem probability_eq (s : StateVector ℝ) (x : ℕ) :
    s.probability x = Complex.normSq (wave s.amplitudes x) := by
  rw [StateVector.probability, StateVector.amplitude?, wave, Array.getD_eq_getD_getElem?]
  cases s.amplitudes[x]? with
  | none => simp
  | some a => rfl

theorem norm_startWave (n : ℕ) : ‖vector n startWave‖ = 1 := by
  have hsingle : vector n startWave = EuclideanSpace.single ⟨0, Nat.two_pow_pos n⟩ 1 := by
    ext x
    simp only [vector_apply, startWave, Pi.single_apply, PiLp.single_apply, Fin.ext_iff]
  rw [hsingle, PiLp.norm_single, norm_one]

/-- Two vectors of a register with one wave are equal. -/
theorem eq_of_vector_wave {n : ℕ} {as bs : Array (Amplitude ℝ)} (ha : as.size = 2 ^ n)
    (hb : bs.size = 2 ^ n) (h : vector n (wave as) = vector n (wave bs)) : as = bs := by
  apply Array.ext (ha.trans hb.symm)
  intro i hi hi'
  have hat := congrArg (fun v => v ⟨i, ha ▸ hi⟩) h
  simp only [vector_apply, wave] at hat
  have heq := Amplitude.toComplex_injective hat
  simpa [Array.getD, hi, hi'] using heq

theorem eq_of_wave {n : ℕ} {as bs : Array (Amplitude ℝ)} (ha : as.size = 2 ^ n)
    (hb : bs.size = 2 ^ n) (h : wave as = wave bs) : as = bs :=
  eq_of_vector_wave ha hb (congrArg (vector n) h)

/-! ## The checks -/

theorem size_actAll {α : Type} [Scalar α] (gates : List (Gate α))
    (amplitudes : Array (Amplitude α)) : (actAll gates amplitudes).size = amplitudes.size := by
  induction gates generalizing amplitudes with
  | nil => rfl
  | cons g gates ih => exact (ih (g.act amplitudes)).trans (size_act g amplitudes)

section

variable {α : Type} [Scalar α] {n : ℕ} (hn : n < 64)
include hn

/-- Bits put at qubits of a register stay in the vector of the register. -/
theorem spread_lt {qs : List ℕ} (hqs : ∀ q ∈ qs, q < n) (position : ℕ) :
    spread qs position < 2 ^ n := by
  induction qs with
  | nil => exact Nat.two_pow_pos n
  | cons q qs ih =>
    obtain ⟨hq, hqs⟩ := List.forall_mem_cons.1 hqs
    apply Nat.or_lt_two_pow _ (ih hqs)
    split
    · rw [mask_eq (hq.trans hn)]
      exact Nat.pow_lt_pow_right Nat.one_lt_two hq
    · exact Nat.two_pow_pos n

theorem fits_of_inside {g : Gate α} (hg : ∀ q ∈ g.qubits, q < n) : g.fits (2 ^ n) = true := by
  refine Bool.or_eq_true_iff.2 (Or.inl (List.all_eq_true.2 fun offset hoffset => ?_))
  obtain ⟨c, -, rfl⟩ := List.mem_map.1 hoffset
  exact decide_eq_true (spread_lt hn hg c)

theorem ofAmplitudes_of_size {amplitudes : Array (Amplitude α)} (hsize : amplitudes.size = 2 ^ n) :
    StateVector.ofAmplitudes amplitudes = .ok (.measured amplitudes n) := by
  rw [StateVector.ofAmplitudes, hsize, Nat.log2_two_pow, dimension_eq hn]
  exact if_pos rfl

end

/-- Whether a register is simulated under a limit: it is not too wide, and its vector can be
stored. -/
def Circuit.simulated {α : Type} (c : Circuit α) (limit : ℕ) : Bool :=
  c.width ≤ limit && Storage.holdsPairs (Qubit.dimension c.width)

/-- A register that is simulated is narrower than a word where the limit is. -/
theorem Circuit.width_lt_of_simulated {α : Type} {c : Circuit α} {limit : ℕ}
    (hword : c.width < 64 ∨ limit < 64) (h : c.simulated limit = true) : c.width < 64 := by
  simp only [simulated, Bool.and_eq_true, decide_eq_true_eq] at h
  omega

section

variable {α : Type} [Scalar α] [AmplitudeStore α] {c : Circuit α} {limit : ℕ}

/-- **The simulation of a circuit whose gates lie in its register**, narrower than a word. -/
theorem Circuit.state_of_inside (hinside : ∀ g ∈ c.gates, ∀ q ∈ g.qubits, q < c.width)
    (hn : c.width < 64) (hsimulated : c.simulated limit = true) :
    c.state limit =
      .ok (.measured (actAll c.gates (StateVector.basis c.width 0).amplitudes) c.width) := by
  simp only [simulated, Bool.and_eq_true, decide_eq_true_eq] at hsimulated
  obtain ⟨hwidth, hstorage⟩ := hsimulated
  have hsize : (StateVector.basis c.width 0 : StateVector α).amplitudes.size = 2 ^ c.width := by
    rw [StateVector.size_amplitudes_basis, dimension_eq hn]
  -- every check of the simulation passes
  have hfits : (c.gates.all fun g => g.fits (2 ^ c.width)) = true :=
    List.all_eq_true.2 fun g hg => fits_of_inside hn (hinside g hg)
  rw [state_eq, if_neg (by omega), StateVector.storedBasis, if_pos hstorage]
  show (if (c.gates.all fun g => g.fits (StateVector.basis c.width 0).amplitudes.size) = true then _
    else _) = _
  rw [hsize, if_pos hfits, ofAmplitudes_of_size hn ((size_actAll _ _).trans hsize)]

/-- What is refused is refused because of the register, whatever the gates. -/
theorem Circuit.state_of_not_simulated (hsimulated : c.simulated limit = false) :
    c.state limit =
      .error (if limit < c.width then .tooWide c.width limit else .noStorage c.width) := by
  rw [state_eq]
  by_cases hwidth : limit < c.width
  · rw [if_pos hwidth, if_pos hwidth]
    rfl
  · have hstorage : ¬ Storage.holdsPairs (Qubit.dimension c.width) = true := by
      simpa [simulated, Nat.not_lt.1 hwidth] using hsimulated
    rw [if_neg hwidth, if_neg hwidth, StateVector.storedBasis, if_neg hstorage]
    rfl

end

/-! ## What the checks leave -/

section

variable {α : Type} [Scalar α] {s : StateVector α}

theorem StateVector.storedBasis_eq_ok_iff {n x : ℕ} : storedBasis n x = .ok s ↔
    Storage.holdsPairs (Qubit.dimension n) = true ∧ basis n x = s := by
  unfold storedBasis
  split_ifs with hstorage
  · exact ⟨fun h => ⟨hstorage, Except.ok.inj h⟩, fun h => congrArg _ h.2⟩
  · exact ⟨nofun, fun h => absurd h.1 hstorage⟩

/-- A vector is taken where its length is the dimension of the width that is counted from it. -/
theorem StateVector.ofAmplitudes_eq_ok_iff {v : Array (Amplitude α)} : ofAmplitudes v = .ok s ↔
    v.size = Qubit.dimension v.size.log2 ∧ measured v v.size.log2 = s := by
  unfold ofAmplitudes
  dsimp only
  split_ifs with hsize
  · exact ⟨fun h => ⟨hsize, Except.ok.inj h⟩, fun h => congrArg _ h.2⟩
  · exact ⟨nofun, fun h => absurd h.1 hsize⟩

/-- A simulated state is made from the vector that the gates leave. -/
theorem Circuit.ofAmplitudes_of_state [AmplitudeStore α] {c : Circuit α} {limit : ℕ}
    (h : c.state limit = .ok s) :
    StateVector.ofAmplitudes (actAll c.gates (StateVector.basis c.width 0).amplitudes) = .ok s := by
  rw [state_eq] at h
  by_cases hlimit : limit < c.width
  · rw [if_pos hlimit] at h
    exact nomatch h
  · rw [if_neg hlimit] at h
    obtain ⟨start, hstart, h⟩ := bind_eq_ok.1 h
    obtain ⟨-, rfl⟩ := StateVector.storedBasis_eq_ok_iff.1 hstart
    split_ifs at h
    exact h

end

/-! ## The end -/

/-- **The simulation of a circuit of constructed gates** on a register narrower than a word. -/
theorem Circuit.state_of_built {c : Circuit ℝ} (hc : c.Built) (hn : c.width < 64) {limit : ℕ}
    (hsimulated : c.simulated limit = true) :
    ∃ amplitudes, c.state limit = .ok (.measured amplitudes c.width) ∧
      amplitudes.size = 2 ^ c.width ∧ wave amplitudes = operatorAll c.gates startWave := by
  have hinside : ∀ g ∈ c.gates, ∀ q ∈ g.qubits, q < c.width := fun g hg => (hc g hg).inside
  obtain ⟨hsize, hwave⟩ := wave_actAll hn hc (size_basis hn 0)
  exact ⟨_, state_of_inside hinside hn hsimulated, hsize, by rw [hwave, wave_basis_zero]⟩

/-- Where both are simulated, circuits have one state exactly if their gates lead to one wave. -/
theorem Circuit.state_eq_iff {c c' : Circuit ℝ} (hc : c.Built) (hc' : c'.Built)
    (hwidth : c'.width = c.width) (hn : c.width < 64) {limit : ℕ}
    (hsimulated : c.simulated limit = true) :
    c'.state limit = c.state limit ↔
      operatorAll c'.gates startWave = operatorAll c.gates startWave := by
  have hsimulated' : c'.simulated limit = true := by rwa [simulated, hwidth]
  obtain ⟨s, hs, hsize, hwave⟩ := state_of_built hc hn hsimulated
  obtain ⟨s', hs', hsize', hwave'⟩ := state_of_built hc' (hwidth ▸ hn) hsimulated'
  rw [hwidth] at hs' hsize'
  rw [hs, hs', ← hwave, ← hwave']
  refine ⟨fun h => congrArg (fun s => wave s.amplitudes) (Except.ok.inj h), fun h => ?_⟩
  rw [eq_of_wave hsize' hsize h]

/-- **Circuits that lead to one wave have one state**, also where the simulation refuses the
register. -/
theorem Circuit.state_congr_wave {c c' : Circuit ℝ} (hc : c.Built) (hc' : c'.Built)
    (hwidth : c'.width = c.width)
    (h : operatorAll c'.gates startWave = operatorAll c.gates startWave) {limit : ℕ}
    (hword : c.width < 64 ∨ limit < 64) : c'.state limit = c.state limit := by
  cases hsimulated : c.simulated limit with
  | false =>
    have hsimulated' : c'.simulated limit = false := by rwa [simulated, hwidth]
    rw [state_of_not_simulated hsimulated, state_of_not_simulated hsimulated', hwidth]
  | true =>
    exact (state_eq_iff hc hc' hwidth (width_lt_of_simulated hword hsimulated) hsimulated).2 h

/-- **Circuits that act alike have one state**, also where the simulation refuses the register. -/
theorem Circuit.state_congr {c c' : Circuit ℝ} (hc : c.Built) (hc' : c'.Built)
    (hwidth : c'.width = c.width) (h : operatorAll c'.gates = operatorAll c.gates) {limit : ℕ}
    (hword : c.width < 64 ∨ limit < 64) : c'.state limit = c.state limit :=
  state_congr_wave hc hc' hwidth (LinearMap.congr_fun h startWave) hword

end QuantumWorkbench
