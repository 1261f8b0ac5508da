import Mathlib
import QuantumWorkbench.Coupling.Fitting
import QuantumWorkbench.Proofs.Gate.Fidelity
import QuantumWorkbench.Proofs.Gate.Network
import QuantumWorkbench.Proofs.Simulation

/-!
# What writing gates out keeps

On any register that holds its qubits a gate may be replaced by its expansion. So a device without a
coupling graph fits a circuit without changing its state, whatever gates it carries out itself, and
leaves no gate that it would still have to write out.
-/

namespace QuantumWorkbench

open Gate Register

/-! ## Expansions -/

/-- The kinds that are written out in others. -/
def GateKind.writtenOut : List GateKind := [.toffoli, .cz, .swap, .fredkin]

/-- The kinds that they are written out in. -/
def GateKind.basic : List GateKind := [.h, .t, .tdg, .cnot]

theorem Gate.kind_of_mem_toffoliNetwork {α : Type} [Scalar α] {a b c : ℕ} :
    ∀ x ∈ (toffoliNetwork a b c : List (Gate α)), x.kind ∈ GateKind.basic := by
  simp [toffoliNetwork, plain, GateKind.basic]

/-- A gate that is written out leaves basic gates only. -/
theorem Gate.kind_of_mem_expansion {α : Type} [Scalar α] {g x : Gate α} (hg : g.WellFormed)
    (hk : g.kind ∈ GateKind.writtenOut) (hx : x ∈ g.expansion) : x.kind ∈ GateKind.basic := by
  cases hg.expands with
  | toffoli _ _ hlist =>
    rw [hlist] at hx
    exact kind_of_mem_toffoliNetwork x hx
  | cz _ _ hlist | swap _ _ hlist =>
    rw [hlist] at hx
    revert x
    simp [plain, GateKind.basic]
  | @fredkin a b c _ _ hlist =>
    rw [hlist] at hx
    have hcnot : (plain .cnot [c, b] : Gate α).kind ∈ GateKind.basic := by
      simp [plain, GateKind.basic]
    revert x
    simp only [List.cons_append, List.forall_mem_cons, List.forall_mem_append]
    exact ⟨hcnot, kind_of_mem_toffoliNetwork, hcnot, by simp⟩
  | self hkind _ => simp [GateKind.writtenOut, hkind] at hk

/-- On a vector of a register the expansion of a gate does what the gate does. -/
theorem Gate.actAll_expansion {n : ℕ} (hn : n < 64) {g : Gate ℝ} (hg : g.BuiltIn n)
    {amplitudes : Array (Amplitude ℝ)} (hsize : amplitudes.size = 2 ^ n) :
    actAll g.expansion amplitudes = g.act amplitudes := by
  obtain ⟨hsizeAll, hwaveAll⟩ := wave_actAll hn (fun x hx => hg.expansion hx) hsize
  obtain ⟨hsizeOne, hwaveOne⟩ :=
    wave_actAll hn (List.forall_mem_singleton.2 hg) hsize
  refine eq_of_wave hsizeAll hsizeOne ?_
  rw [hwaveAll, operatorAll_expansion hg.built.wellFormed]
  exact hwaveOne.symm

namespace Device

variable (d : Device)

/-! ## Gates as a device carries them out -/

theorem operatorAll_expand {g : Gate ℝ} (hg : g.WellFormed) :
    operatorAll (d.expand g) = g.operator := by
  unfold expand
  split
  · exact operatorAll_expansion hg
  · exact LinearMap.id_comp _

theorem expandAll_cons {α : Type} [Scalar α] (g : Gate α) (gates : List (Gate α)) :
    d.expandAll (g :: gates) = d.expand g ++ d.expandAll gates := List.flatMap_cons

theorem operatorAll_expandAll {gates : List (Gate ℝ)} (hgates : ∀ g ∈ gates, g.WellFormed) :
    operatorAll (d.expandAll gates) = operatorAll gates := by
  induction gates with
  | nil => rfl
  | cons g gates ih =>
    obtain ⟨hg, hgates⟩ := List.forall_mem_cons.1 hgates
    rw [expandAll_cons, operatorAll_append, operatorAll_expand d hg, operatorAll_cons, ih hgates]

theorem builtIn_expand {α : Type} [Scalar α] {width : ℕ} {g x : Gate α} (hg : g.BuiltIn width)
    (hx : x ∈ d.expand g) : x.BuiltIn width := by
  unfold expand at hx
  split at hx
  · exact hg.expansion hx
  · exact List.mem_singleton.1 hx ▸ hg

/-- What a device carries out needs no further expansion. -/
theorem needsExpansion_of_mem_expand {α : Type} [Scalar α] {g x : Gate α} (hg : g.WellFormed)
    (hx : x ∈ d.expand g) : d.needsExpansion x = false := by
  unfold expand at hx
  split at hx
  · next hneeds =>
    have hk : g.kind ∈ GateKind.writtenOut := by
      simp only [needsExpansion, Bool.and_eq_true, Bool.or_eq_true, decide_eq_true_eq] at hneeds
      rcases hneeds.2 with h | h <;> simp [GateKind.writtenOut, h]
    have hbasic := kind_of_mem_expansion hg hk hx
    simp only [GateKind.basic, List.mem_cons, List.not_mem_nil, or_false] at hbasic
    rcases hbasic with h | h | h | h <;> simp [needsExpansion, h]
  · next hneeds =>
    rw [List.mem_singleton.1 hx]
    exact Bool.not_eq_true _ ▸ hneeds

/-- Without a graph a circuit is only written out. -/
theorem fit_of_uncoupled {α : Type} [Scalar α] {d : Device} (hd : d.coupling = none)
    (c : Circuit α) : ∃ f, d.fit c = .ok f ∧ f.circuit = c.withGates (d.expandAll c.gates) := by
  apply map_eq_ok.1
  rw [fit, routeFor, hd]
  rfl

/-! ## States -/

/-- **Writing gates out keeps every state.** An expansion acts as its gate does, also on the vectors
of every register narrower than a word, and consists of basic gates where the gate is written out at
all. A device without a coupling graph fits every circuit of constructed gates, keeps what it does
and its state, and leaves nothing to be written out. -/
theorem expansion_keeps_state :
    (∀ (n : ℕ) (g : Gate ℝ), g.BuiltIn n →
      operatorAll g.expansion = g.operator ∧
      (n < 64 → ∀ amplitudes : Array (Amplitude ℝ), amplitudes.size = 2 ^ n →
        actAll g.expansion amplitudes = g.act amplitudes) ∧
      (g.kind ∈ GateKind.writtenOut → ∀ x ∈ g.expansion, x.kind ∈ GateKind.basic)) ∧
    (∀ (d : Device) (c : Circuit ℝ), d.coupling = none → c.Built → ∃ f, d.fit c = .ok f ∧
      operatorAll f.circuit.gates = operatorAll c.gates ∧
      (∀ limit, c.width < 64 ∨ limit < 64 → f.circuit.state limit = c.state limit) ∧
      ∀ x ∈ f.circuit.gates, d.needsExpansion x = false) := by
  refine ⟨fun n g hg => ⟨operatorAll_expansion hg.built.wellFormed,
    fun hn _ hsize => actAll_expansion hn hg hsize,
    fun hk _ hx => kind_of_mem_expansion hg.built.wellFormed hk hx⟩, fun d c hd hc => ?_⟩
  obtain ⟨f, hfit, hcircuit⟩ := fit_of_uncoupled hd c
  have hgates := operatorAll_expandAll d hc.wellFormed
  have hbuilt : (c.withGates (d.expandAll c.gates)).Built := fun x hx => by
    obtain ⟨g, hg, hx⟩ := List.mem_flatMap.1 hx
    exact builtIn_expand d (hc g hg) hx
  rw [← hcircuit] at hbuilt
  refine ⟨f, hfit, by rw [hcircuit]; exact hgates, fun limit hword => ?_, fun x hx => ?_⟩
  · exact Circuit.state_congr hc hbuilt (by rw [hcircuit]; rfl) (by rw [hcircuit]; exact hgates)
      hword
  · rw [hcircuit] at hx
    obtain ⟨g, hg, hx⟩ := List.mem_flatMap.1 hx
    exact needsExpansion_of_mem_expand d (hc.wellFormed g hg) hx

/-- A circuit with a gate on three qubits in no particular order and a controlled sign. -/
noncomputable def tangled : Circuit ℝ :=
  (Circuit.blank 4 0).appendGates
    [plain .h [3], plain .toffoli [3, 0, 2], plain .cz [2, 1], plain .fredkin [1, 3, 0]]

theorem built_tangled : tangled.Built := by
  simp only [Circuit.Built, tangled, Circuit.appendGates, Circuit.blank, List.nil_append,
    List.forall_mem_cons, List.not_mem_nil, false_implies, implies_true, and_true]
  exact ⟨⟨built_plain rfl rfl, by decide⟩, ⟨built_plain rfl rfl, by decide⟩,
    ⟨built_plain rfl rfl, by decide⟩, ⟨built_plain rfl rfl, by decide⟩⟩

/-- A controlled exchange on qubits in no particular order, and a device with the default gates. -/
theorem expansion_keeps_state_of_tangled :
    (plain .fredkin [1, 3, 0] : Gate ℝ).BuiltIn 4 ∧
    actAll (plain .fredkin [1, 3, 0] : Gate ℝ).expansion (StateVector.basis 4 10).amplitudes =
      (plain .fredkin [1, 3, 0] : Gate ℝ).act (StateVector.basis 4 10).amplitudes ∧
    tangled.Built ∧ ∃ f, (ofCoupling none).fit tangled = .ok f ∧
      f.circuit.state 24 = tangled.state 24 := by
  have hgate : (plain .fredkin [1, 3, 0] : Gate ℝ).BuiltIn 4 :=
    built_tangled _ (by simp [tangled, Circuit.appendGates])
  have hacts := (expansion_keeps_state.1 4 _ hgate).2.1 (by decide)
  obtain ⟨f, hfit, -, hstate, -⟩ :=
    expansion_keeps_state.2 (ofCoupling none) tangled rfl built_tangled
  exact ⟨hgate, hacts _ (size_basis (by decide) 10), built_tangled, f, hfit,
    hstate 24 (Or.inr (by decide))⟩

end Device

end QuantumWorkbench
