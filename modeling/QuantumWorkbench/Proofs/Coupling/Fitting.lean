import Mathlib
import QuantumWorkbench.Proofs.Coupling.Expansion
import QuantumWorkbench.Proofs.Coupling.Routing
import QuantumWorkbench.Proofs.Gate.Renaming
import QuantumWorkbench.Proofs.Simulation

/-!
# What fitting a circuit to a device keeps

The exchanges that routing inserts are never undone, and later gates keep their qubits. So a fitted
circuit computes, up to the permutation that all exchanges make together, what the circuit computes
whose gates act on the qubits where the values under them started. Where nothing is exchanged that
is the circuit itself.
-/

namespace QuantumWorkbench

open Gate Register

namespace CouplingGraph

/-! ## Where values started -/

/-- The qubits where the values started that are at each qubit after a chain of exchanges. -/
def originAfter (origin : Equiv.Perm ℕ) (chain : List (ℕ × ℕ)) : Equiv.Perm ℕ :=
  chain.foldl (fun σ e => σ * Equiv.swap e.1 e.2) origin

/-- The gates of a list on the qubits where the values under them started. -/
def renamed {α : Type} [Scalar α] (origin : Equiv.Perm ℕ) :
    List (Gate α) → List (List (ℕ × ℕ)) → List (Gate α)
  | gate :: gates, chain :: chains =>
    gate.rename (originAfter origin chain) :: renamed (originAfter origin chain) gates chains
  | _, _ => []

theorem originAfter_lt {width : ℕ} {origin : Equiv.Perm ℕ} (horigin : ∀ q < width, origin q < width)
    {chain : List (ℕ × ℕ)} (hchain : ∀ e ∈ chain, Crosses width e) :
    ∀ q < width, originAfter origin chain q < width := by
  induction chain generalizing origin with
  | nil => exact horigin
  | cons e chain ih =>
    obtain ⟨he, hchain⟩ := List.forall_mem_cons.1 hchain
    refine ih (fun q hq => horigin _ ?_) hchain
    rw [Equiv.swap_apply_def]
    split
    · exact he.second
    · split
      · exact he.first
      · exact hq

theorem builtIn_renamed {α : Type} [Scalar α] {g : CouplingGraph} {width : ℕ}
    {origin : Equiv.Perm ℕ} (horigin : ∀ q < width, origin q < width) {gates : List (Gate α)}
    {chains : List (List (ℕ × ℕ))} (hroutes : List.Forall₂ (g.Routes width) gates chains)
    (hgates : ∀ gate ∈ gates, gate.BuiltIn width) :
    ∀ gate ∈ renamed origin gates chains, gate.BuiltIn width := by
  induction hroutes generalizing origin with
  | nil => exact fun gate hgate => by cases hgate
  | @cons gate chain gates chains hroute _ ih =>
    obtain ⟨hgate, hgates⟩ := List.forall_mem_cons.1 hgates
    have hafter := originAfter_lt horigin hroute.crosses
    refine List.forall_mem_cons.2 ⟨⟨hgate.built.rename (Equiv.injective _), ?_⟩, ih hafter hgates⟩
    intro q hq
    obtain ⟨p, hp, rfl⟩ := List.mem_map.1 hq
    exact hafter p (hgate.inside p hp)

theorem renamed_of_flatten_eq_nil {α : Type} [Scalar α] {g : CouplingGraph} {width : ℕ}
    {gates : List (Gate α)} {chains : List (List (ℕ × ℕ))}
    (hroutes : List.Forall₂ (g.Routes width) gates chains) (h : chains.flatten = []) :
    renamed 1 gates chains = gates := by
  induction hroutes with
  | nil => rfl
  | @cons gate chain gates chains _ _ ih =>
    rw [List.flatten_cons, List.append_eq_nil_iff] at h
    obtain ⟨rfl, hrest⟩ := h
    rw [renamed, originAfter, List.foldl_nil, ih hrest]
    exact congrArg (· :: gates) gate.rename_id

/-! ## Operators -/

/-- A chain of exchanges moves indices. -/
theorem operatorAll_exchanges {f : ℕ → ℕ} {origin : Equiv.Perm ℕ} (hf : Carries f origin)
    {chain : List (ℕ × ℕ)} (hchain : ∀ e ∈ chain, e.1 ≠ e.2) :
    ∃ f', Carries f' (originAfter origin chain) ∧
      operatorAll (chain.map exchange) ∘ₗ LinearMap.funLeft ℂ ℂ f = LinearMap.funLeft ℂ ℂ f' := by
  induction chain generalizing f origin with
  | nil => exact ⟨f, hf, LinearMap.id_comp _⟩
  | cons e chain ih =>
    obtain ⟨he, hchain⟩ := List.forall_mem_cons.1 hchain
    -- the exchange joins what was moved before it
    obtain ⟨f', hf', hrest⟩ := ih (hf.comp (carries_exchangeBits e.1 e.2)) hchain
    refine ⟨f', hf', ?_⟩
    rw [List.map_cons, operatorAll_cons, LinearMap.comp_assoc, exchange, operator_swap he, ← hrest]
    rfl

/-- **Exchanges can be moved behind all gates**, when the gates are renamed on the way. -/
theorem operatorAll_carryOut {g : CouplingGraph} {width : ℕ} (d : Device) {f : ℕ → ℕ}
    {origin : Equiv.Perm ℕ} (hf : Carries f origin) {gates : List (Gate ℝ)}
    {chains : List (List (ℕ × ℕ))} (hroutes : List.Forall₂ (g.Routes width) gates chains)
    (hgates : ∀ gate ∈ gates, gate.WellFormed) :
    ∃ f', Carries f' (originAfter origin chains.flatten) ∧
      operatorAll (d.carryOut gates chains) ∘ₗ LinearMap.funLeft ℂ ℂ f =
        LinearMap.funLeft ℂ ℂ f' ∘ₗ operatorAll (renamed origin gates chains) := by
  induction hroutes generalizing f origin with
  | nil => exact ⟨f, hf, rfl⟩
  | @cons gate chain gates chains hroute _ ih =>
    obtain ⟨hgate, hgates⟩ := List.forall_mem_cons.1 hgates
    -- the first chain goes behind its gate, and with what was moved before behind all others
    obtain ⟨f₁, hf₁, hexchanges⟩ :=
      operatorAll_exchanges hf fun e he => (hroute.crosses e he).ne
    obtain ⟨f', hf', hrest⟩ := ih hf₁ hgates
    have horigin : originAfter origin (chain :: chains).flatten =
        originAfter (originAfter origin chain) chains.flatten := by
      rw [List.flatten_cons, originAfter, List.foldl_append]
      rfl
    refine ⟨f', horigin ▸ hf', ?_⟩
    calc operatorAll (d.carryOut (gate :: gates) (chain :: chains)) ∘ₗ LinearMap.funLeft ℂ ℂ f
        = operatorAll (d.carryOut gates chains) ∘ₗ gate.operator ∘ₗ
          (operatorAll (chain.map exchange) ∘ₗ LinearMap.funLeft ℂ ℂ f) := by
          rw [Device.carryOut, List.zipWith_cons_cons, List.flatten_cons, operatorAll_append,
            operatorAll_append, Device.operatorAll_expand d hgate, LinearMap.comp_assoc,
            LinearMap.comp_assoc]
          rfl
      _ = (operatorAll (d.carryOut gates chains) ∘ₗ LinearMap.funLeft ℂ ℂ f₁) ∘ₗ
          (gate.rename (originAfter origin chain)).operator := by
          rw [hexchanges, operator_rename hf₁, LinearMap.comp_assoc]
      _ = LinearMap.funLeft ℂ ℂ f' ∘ₗ
          operatorAll (renamed origin (gate :: gates) (chain :: chains)) := by
          rw [hrest, renamed, operatorAll_cons, LinearMap.comp_assoc]

end CouplingGraph

namespace Device

open CouplingGraph

/-! ## Fitted circuits -/

theorem builtIn_carryOut (d : Device) {g : CouplingGraph} {width : ℕ} {gates : List (Gate ℝ)}
    {chains : List (List (ℕ × ℕ))} (hroutes : List.Forall₂ (g.Routes width) gates chains)
    (hgates : ∀ gate ∈ gates, gate.BuiltIn width) :
    ∀ x ∈ d.carryOut gates chains, x.BuiltIn width := by
  intro x hx
  rcases exists_of_mem_carryOut hroutes hx with ⟨e, rfl, he, -⟩ | ⟨gate, hgate, hexpand⟩
  · have hqubits : checkQubits (α := ℝ) .swap [e.1, e.2] = .ok () := by
      simp [checkQubits, GateKind.arity, Qubit.firstRepeated, he.ne]
    exact ⟨built_plain hqubits rfl, by simp [exchange, Gate.plain, he.first, he.second]⟩
  · exact builtIn_expand d (hgates gate hgate) hexpand

/-- **Two-qubit gates that are carried out** act on a pair that the graph connects, unless they
belong to a gate on an unconnected pair or to an expanded gate on three qubits. -/
theorem qubits_of_mem_carryOut {d : Device} {g : CouplingGraph} {width : ℕ} {gates : List (Gate ℝ)}
    {chains : List (List (ℕ × ℕ))} (hroutes : List.Forall₂ (g.Routes width) gates chains)
    (hgates : ∀ gate ∈ gates, gate.WellFormed) {x : Gate ℝ} (hx : x ∈ d.carryOut gates chains)
    (hwidth : x.width = 2) :
    (∃ a b, x.qubits = [a, b] ∧ g.connects a b = true) ∨
      ∃ gate ∈ gates, x ∈ d.expand gate ∧
        (gate.kind = .toffoli ∨ (x.qubits = gate.qubits ∧
          ∃ a b, gate.qubits = [a, b] ∧ g.connects a b = false)) := by
  rcases exists_of_mem_carryOut hroutes hx with ⟨e, rfl, -, he⟩ | ⟨gate, hgate, hexpand⟩
  · exact Or.inl ⟨e.1, e.2, rfl, he⟩
  · by_cases htoffoli : gate.kind = .toffoli
    · exact Or.inr ⟨gate, hgate, hexpand, Or.inl htoffoli⟩
    · -- any other gate of two qubits stands for one on the same qubits
      have hsame : x.qubits = gate.qubits := by
        have hmem := hexpand
        unfold expand at hmem
        split at hmem
        · next hneeds =>
          simp only [needsExpansion, htoffoli, Bool.and_eq_true, Bool.or_eq_true, decide_eq_true_eq,
            false_or] at hneeds
          have hcz : gate.kind = .cz := hneeds.2
          obtain ⟨a, b, hq⟩ := List.length_eq_two.1 ((hgates gate hgate).arity 2 (by rw [hcz]; rfl))
          rw [expansion, hcz, hq] at hmem
          -- of the expansion only the controlled negation acts on two qubits
          simp only [List.mem_cons, List.not_mem_nil, or_false] at hmem
          rcases hmem with rfl | rfl | rfl
          · cases hwidth
          · exact hq.symm
          · cases hwidth
        · rw [List.mem_singleton.1 hmem]
      obtain ⟨a, b, hq⟩ := List.length_eq_two.1 hwidth
      cases hconnects : g.connects a b with
      | true => exact Or.inl ⟨a, b, hq, hconnects⟩
      | false => exact Or.inr ⟨gate, hgate, hexpand, Or.inr ⟨hsame, a, b, hsame ▸ hq, hconnects⟩⟩

/-- The states of a fitted circuit and of the circuit with renamed gates: both are simulated, and
every amplitude of one is the amplitude of the other at the index with its bits moved. -/
theorem exists_state_carryOut (d : Device) {g : CouplingGraph} {c : Circuit ℝ} (hc : c.Built)
    {chains : List (List (ℕ × ℕ))} (hroutes : List.Forall₂ (g.Routes c.width) c.gates chains)
    (hn : c.width < 64) {limit : ℕ} (hsimulated : c.simulated limit = true) :
    ∃ s s', (c.withGates (renamed 1 c.gates chains)).state limit = .ok (.measured s c.width) ∧
      (c.withGates (d.carryOut c.gates chains)).state limit = .ok (.measured s' c.width) ∧
      s.size = 2 ^ c.width ∧ s'.size = 2 ^ c.width ∧
      ∀ x y : ℕ, (∀ q, y.testBit (originAfter 1 chains.flatten q) = x.testBit q) →
        s'.getD x 0 = s.getD y 0 := by
  have hrenamed : (c.withGates (renamed 1 c.gates chains)).Built :=
    builtIn_renamed (fun _ hq => hq) hroutes hc
  have hcarried : (c.withGates (d.carryOut c.gates chains)).Built := builtIn_carryOut d hroutes hc
  obtain ⟨s, hstate, hsize, hwave⟩ := Circuit.state_of_built hrenamed hn hsimulated
  obtain ⟨s', hstate', hsize', hwave'⟩ := Circuit.state_of_built hcarried hn hsimulated
  refine ⟨s, s', hstate, hstate', hsize, hsize', fun x y hxy => ?_⟩
  -- nothing is exchanged before the first gate
  obtain ⟨f, hf, hoperator⟩ := operatorAll_carryOut d carries_id hroutes hc.wellFormed
  have hmoved : wave s' x = wave s (f x) := by
    rw [hwave, hwave']
    exact congrFun (LinearMap.congr_fun hoperator startWave) x
  refine Amplitude.toComplex_injective (hmoved.trans ?_)
  rw [← hf.eq_of_testBit hxy]
  rfl

/-- **What fitting to a device with a graph keeps**. Before each gate stands a chain of exchanges
along edges, empty exactly where the gate needs none. Two-qubit gates are on connected pairs apart
from those that stand for a gate on an unconnected pair or on three qubits. Up to one permutation of
the qubits the state is that of the circuit whose gates act where the values under them started,
and where nothing is exchanged it is the state of the circuit itself. -/
theorem fit_sound {d : Device} {g : CouplingGraph} (hd : d.coupling = some g) {c : Circuit ℝ}
    (hc : c.Built) {f : Fitted ℝ} (h : d.fit c = .ok f) {limit : ℕ}
    (hword : c.width < 64 ∨ limit < 64) :
    ∃ chains : List (List (ℕ × ℕ)),
      List.Forall₂ (g.Routes c.width) c.gates chains ∧
      f.circuit.gates = d.carryOut c.gates chains ∧
      (∀ x ∈ f.circuit.gates, x.width = 2 → (∃ a b, x.qubits = [a, b] ∧ g.connects a b = true) ∨
        ∃ gate ∈ c.gates, x ∈ d.expand gate ∧
          (gate.kind = .toffoli ∨ (x.qubits = gate.qubits ∧
            ∃ a b, gate.qubits = [a, b] ∧ g.connects a b = false))) ∧
      (c.simulated limit = false →
        ∃ e, c.state limit = .error e ∧ f.circuit.state limit = .error e) ∧
      (c.simulated limit = true → ∃ s s',
        (c.withGates (renamed 1 c.gates chains)).state limit = .ok (.measured s c.width) ∧
        f.circuit.state limit = .ok (.measured s' c.width) ∧
        s.size = 2 ^ c.width ∧ s'.size = 2 ^ c.width ∧
        ∀ x y : ℕ, (∀ q, y.testBit (originAfter 1 chains.flatten q) = x.testBit q) →
          s'.getD x 0 = s.getD y 0) ∧
      (f.swaps = 0 → f.circuit.state limit = c.state limit) := by
  have hwell := hc.wellFormed
  obtain ⟨chains, hroutes, hcircuit, hswaps⟩ :=
    fit_eq_ok hd (fun gate hgate => (hwell gate hgate).nodup) h
  rw [hcircuit, hswaps]
  have hrefused : c.simulated limit = false → ∃ e, c.state limit = .error e ∧
      (c.withGates (d.carryOut c.gates chains)).state limit = .error e := fun hsimulated =>
    ⟨_, Circuit.state_of_not_simulated hsimulated, Circuit.state_of_not_simulated hsimulated⟩
  refine ⟨chains, hroutes, rfl, fun x hx hwidth => qubits_of_mem_carryOut hroutes hwell hx hwidth,
    hrefused, fun hsimulated => exists_state_carryOut d hc hroutes
      (Circuit.width_lt_of_simulated hword hsimulated) hsimulated, fun hzero => ?_⟩
  cases hsimulated : c.simulated limit with
  | false =>
    obtain ⟨e, hstate, hstate'⟩ := hrefused hsimulated
    rw [hstate, hstate']
  | true =>
    obtain ⟨s, s', hstate, hstate', hsize, hsize', hmoved⟩ :=
      exists_state_carryOut d hc hroutes (Circuit.width_lt_of_simulated hword hsimulated) hsimulated
    have hnil : chains.flatten = [] := List.length_eq_zero_iff.1 hzero
    rw [renamed_of_flatten_eq_nil hroutes hnil] at hstate
    -- without exchanges every index stays where it is
    have hsame : s' = s := by
      apply Array.ext (hsize'.trans hsize.symm)
      intro i hi hi'
      have hat := hmoved i i fun q => by rw [hnil]; rfl
      simpa [Array.getD, hi, hi'] using hat
    rw [hstate', hsame]
    exact hstate.symm

/-! ## A line of three qubits -/

/-- Three qubits in a line, with the default gates. -/
def line : Device := .ofCoupling (some (CouplingGraph.chain 3))

/-- A circuit that negates the first qubit, copies it to the last, and acts on all three. -/
noncomputable def crossing : Circuit ℝ :=
  (Circuit.blank 3 3).appendGates [plain .x [0], plain .cnot [0, 2], plain .toffoli [0, 1, 2]]

theorem built_crossing : crossing.Built := by
  simp only [Circuit.Built, crossing, Circuit.appendGates, Circuit.blank, List.nil_append,
    List.forall_mem_cons, List.not_mem_nil, false_implies, implies_true, and_true]
  exact ⟨⟨built_plain rfl rfl, by decide⟩, ⟨built_plain rfl rfl, by decide⟩,
    ⟨built_plain rfl rfl, by decide⟩⟩

/-- The first two qubits are exchanged before the controlled negation, which stays where it is. -/
theorem exists_fit_crossing : ∃ f, line.fit crossing = .ok f ∧
    f.circuit = crossing.withGates
      ([plain .x [0], plain .swap [0, 1], plain .cnot [0, 2]] ++ toffoliNetwork 0 1 2) := by
  -- the search on the line, then routing gate by gate, then the expansion of the last gate
  have hsearch : (CouplingGraph.chain 3).shortestPath 0 2 = some [0, 1, 2] := by
    rw [shortestPath_eq_search]
    decide
  have hchain : (CouplingGraph.chain 3).swapChain (α := ℝ) 0 2 = .ok [(0, 1)] := by
    rw [swapChain, if_neg (by decide), hsearch]
    rfl
  have hmake : Gate.make .swap [0, 1] .empty = .ok (plain .swap [0, 1] : Gate ℝ) :=
    make_plain rfl rfl
  have hswaps : swapGates 3 [(0, 1)] = .ok [(plain .swap [0, 1] : Gate ℝ)] := by
    rw [swapGates, List.mapM_cons]
    refine bind_eq_ok.2 ⟨plain .swap [0, 1], ?_, rfl⟩
    show (Gate.make .swap [0, 1] .empty).mapError _ = _
    rw [hmake]
    rfl
  have hbefore : (CouplingGraph.chain 3).exchangesFor 3 (plain .cnot [0, 2] : Gate ℝ) =
      .ok [plain .swap [0, 1]] := bind_eq_ok.2 ⟨_, hchain, hswaps⟩
  have hroute : (CouplingGraph.chain 3).route 3 crossing.gates = .ok
      ⟨[plain .x [0], plain .swap [0, 1], plain .cnot [0, 2], plain .toffoli [0, 1, 2]], 1, 1⟩ :=
    bind_eq_ok.2 ⟨[], rfl, bind_eq_ok.2 ⟨_, bind_eq_ok.2 ⟨_, hbefore, bind_eq_ok.2 ⟨_,
      bind_eq_ok.2 ⟨[], rfl, bind_eq_ok.2 ⟨_, rfl, rfl⟩⟩, rfl⟩⟩, rfl⟩⟩
  have hnative : line.isNative .toffoli = false := by cbv
  have hexpand : line.expandAll [plain .x [0], plain .swap [0, 1], plain .cnot [0, 2],
      (plain .toffoli [0, 1, 2] : Gate ℝ)] =
        [plain .x [0], plain .swap [0, 1], plain .cnot [0, 2]] ++ toffoliNetwork 0 1 2 := by
    simp only [expandAll, List.flatMap_cons, List.flatMap_nil, expand, needsExpansion, plain,
      hnative]
    simp
    rfl
  refine ⟨_, bind_eq_ok.2 ⟨_, hroute, rfl⟩, ?_⟩
  exact congrArg crossing.withGates hexpand

/-- The general statement for this circuit. -/
theorem fit_sound_of_crossing : crossing.Built ∧ ∃ f, line.fit crossing = .ok f ∧
    ∃ chains : List (List (ℕ × ℕ)),
      List.Forall₂ ((CouplingGraph.chain 3).Routes 3) crossing.gates chains ∧
      f.circuit.gates = line.carryOut crossing.gates chains ∧
      ∃ s s',
        (crossing.withGates (renamed 1 crossing.gates chains)).state 24 = .ok (.measured s 3) ∧
        f.circuit.state 24 = .ok (.measured s' 3) ∧
        ∀ x y : ℕ, (∀ q, y.testBit (originAfter 1 chains.flatten q) = x.testBit q) →
          s'.getD x 0 = s.getD y 0 := by
  obtain ⟨f, hfit, -⟩ := exists_fit_crossing
  obtain ⟨chains, hroutes, hgates, -, -, hstates, -⟩ :=
    fit_sound rfl built_crossing hfit (Or.inr (show 24 < 64 by decide))
  obtain ⟨s, s', hstate, hstate', -, -, hmoved⟩ := hstates rfl
  exact ⟨built_crossing, f, hfit, chains, hroutes, hgates, s, s', hstate, hstate', hmoved⟩

/-- The first and the last qubit are one in the state of the circuit. -/
theorem operatorAll_crossing {y : ℕ} (h : operatorAll crossing.gates startWave y ≠ 0) :
    y.testBit 0 = true ∧ y.testBit 2 = true := by
  have hop : operatorAll crossing.gates startWave y = startWave (flipIf (fun _ => true) 0
      (flipIf (·.testBit 0) 2 (flipIf (fun x => x.testBit 0 && x.testBit 1) 2 y))) := by
    simp only [crossing, Circuit.appendGates, Circuit.blank, List.nil_append, operatorAll_cons,
      operatorAll_nil, operator_x, operator_cnot (show (0 : ℕ) ≠ 2 by decide),
      operator_toffoli (show [0, 1, 2].Nodup by decide)]
    rfl
  rw [hop, startWave, Pi.single_apply] at h
  have hzero := of_not_not fun hne => h (if_neg hne)
  -- the bits of the index that the three flips lead to are zero
  have hbits := fun p => congrArg (·.testBit p) hzero
  simp only [testBit_flipIf, Nat.zero_testBit] at hbits
  have hfirst : y.testBit 0 = true := by simpa [-Nat.testBit_zero] using hbits 0
  have hsecond : y.testBit 1 = false := by simpa using hbits 1
  have hthird : y.testBit 2 = true := by
    simpa [-Nat.testBit_zero, hfirst, hsecond] using hbits 2
  exact ⟨hfirst, hthird⟩

/-- The middle qubit is one in the state of the fitted circuit. -/
theorem operatorAll_fitted_crossing :
    operatorAll ([plain .x [0], plain .swap [0, 1], plain .cnot [0, 2]] ++ toffoliNetwork 0 1 2)
      startWave 2 = 1 := by
  rw [operatorAll_append, operatorAll_toffoliNetwork (by decide),
    operator_toffoli (show [0, 1, 2].Nodup by decide)]
  simp only [operatorAll_cons, operatorAll_nil, operator_x,
    operator_cnot (show (0 : ℕ) ≠ 2 by decide), operator_swap (show (0 : ℕ) ≠ 1 by decide),
    LinearMap.comp_apply, LinearMap.id_apply, LinearMap.funLeft_apply]
  have hindex : flipIf (fun _ => true) 0 (exchangeBits 0 1 (flipIf (·.testBit 0) 2
      (flipIf (fun x => x.testBit 0 && x.testBit 1) 2 2))) = 0 := by decide
  rw [hindex, startWave, Pi.single_eq_same]

/-- The value of the first qubit is exchanged away, so the later gates find nothing to do: another
number of qubits is one in the end, whatever the permutation. -/
theorem fit_crossing_state : crossing.Built ∧ ∃ f, line.fit crossing = .ok f ∧
    (CouplingGraph.chain 3).connects 0 2 = false ∧
    (plain .cnot [0, 2] ∈ f.circuit.gates.take 3 ∧ plain .cnot [0, 2] ∈ f.circuit.gates.drop 3) ∧
    ∃ s s', crossing.state 24 = .ok s ∧ f.circuit.state 24 = .ok s' ∧
      ∀ σ : Equiv.Perm ℕ, ∃ x y : ℕ, (∀ q, y.testBit (σ q) = x.testBit q) ∧
        s'.amplitudes.getD x 0 ≠ s.amplitudes.getD y 0 := by
  obtain ⟨f, hfit, hcircuit⟩ := exists_fit_crossing
  refine ⟨built_crossing, f, hfit, by decide, ?_, ?_⟩
  · rw [hcircuit]
    exact ⟨by simp [Circuit.withGates], by simp [Circuit.withGates, toffoliNetwork]⟩
  · have hfitted : f.circuit.Built := by
      rw [hcircuit]
      have htoffoli : (plain .toffoli [0, 1, 2] : Gate ℝ).BuiltIn 3 :=
        ⟨built_plain rfl rfl, by decide⟩
      refine List.forall_mem_append.2 ⟨?_, fun x hx => htoffoli.expansion hx⟩
      simp only [List.forall_mem_cons, List.not_mem_nil, false_implies, implies_true, and_true]
      exact ⟨⟨built_plain rfl rfl, by decide⟩, ⟨built_plain rfl rfl, by decide⟩,
        ⟨built_plain rfl rfl, by decide⟩⟩
    have hsimulated : crossing.simulated 24 = true := rfl
    have hsimulated' : f.circuit.simulated 24 = true := by rw [hcircuit]; rfl
    obtain ⟨s, hstate, -, hwave⟩ :=
      Circuit.state_of_built built_crossing (show 3 < 64 by decide) hsimulated
    obtain ⟨s', hstate', -, hwave'⟩ := Circuit.state_of_built hfitted
      (Circuit.width_lt_of_simulated (Or.inr (show 24 < 64 by decide)) hsimulated') hsimulated'
    -- the fitted state is at index 2; the permutation takes it to an index with a single one
    refine ⟨_, _, hstate, hstate', fun σ => ⟨2, 2 ^ σ 1, fun q => ?_, fun hsame => ?_⟩⟩
    · show (2 ^ σ 1).testBit (σ q) = (2 ^ 1).testBit q
      simp only [Nat.testBit_two_pow, σ.injective.eq_iff]
    · have hamplitude : wave s (2 ^ σ 1) = 1 := by
        have hone : wave s' 2 = 1 := by
          rw [hwave', hcircuit]
          exact operatorAll_fitted_crossing
        rw [← hone]
        exact (congrArg Amplitude.toComplex hsame).symm
      obtain ⟨hfirst, hthird⟩ := operatorAll_crossing (y := 2 ^ σ 1) (by
        rw [← hwave, hamplitude]
        exact one_ne_zero)
      -- but the state of the circuit asks for two
      rw [Nat.testBit_two_pow, decide_eq_true_eq] at hfirst hthird
      omega

end Device

end QuantumWorkbench
