import Mathlib
import QuantumWorkbench.Proofs.Circuit.Containment
import QuantumWorkbench.Proofs.Circuit.Depth
import QuantumWorkbench.Proofs.Circuit.Placement
import QuantumWorkbench.Proofs.Simplification.Fusion
import QuantumWorkbench.Proofs.Simplification.Steps

/-!
# Simplified circuits are no worse

Each step of a simplification is judged by itself: no name becomes more frequent, no chain of gates
longer and no qubit new, and over the real numbers the product of the fidelities does not fall. What
a step does a run does, so a simplified circuit is nowhere worse than the one it was made from.
-/

namespace QuantumWorkbench

namespace Simplification

open Gate

/-! ## Over any scalars -/

section

variable {α : Type} [Scalar α]

theorem countP_name_le {gates gates' : List (Gate α)} (h : Step gates gates') (name : String) :
    gates'.countP (fun g => g.kind.name = name) ≤ gates.countP fun g => g.kind.name = name := by
  obtain ⟨before, hrule, after⟩ := h
  simp only [List.countP_append]
  refine Nat.add_le_add_right (Nat.add_le_add_left ?_ _) _
  cases hrule with
  | drop g => exact Nat.zero_le _
  | exchange => exact (List.Perm.swap _ _ []).countP_eq _ |>.le
  | merge hr hkind hq hm =>
    obtain ⟨-, hkindm, -, -⟩ := mergeRotations_eq_ok hm
    simp only [List.countP_cons, List.countP_nil, hkindm]
    omega

theorem length_le_of_step {gates gates' : List (Gate α)} (h : Step gates gates') :
    gates'.length ≤ gates.length := by
  obtain ⟨before, hrule, after⟩ := h
  simp only [List.length_append]
  refine Nat.add_le_add_right (Nat.add_le_add_left ?_ _) _
  cases hrule <;> simp

/-- No step lengthens a chain of gates that share qubits, whatever levels the gates start from. -/
theorem depthOn_le {gates gates' : List (Gate α)} (hgates : ∀ g ∈ gates, g.WellFormed)
    (h : Step gates gates') (f : ℕ → ℕ) :
    depthOn f (gates'.map Gate.qubits) ≤ depthOn f (gates.map Gate.qubits) := by
  obtain ⟨before, hrule, after⟩ := h
  simp only [List.append_assoc, List.map_append]
  apply depthOn_append_le
  intro f
  cases hrule with
  | drop g => exact depthOn_le_cons _ _
  | exchange hdisjoint => exact (depthOn_exchange hdisjoint _).le
  | @merge a b m hr hkind hq hm =>
    -- one of two gates on the same qubits goes, and the other has new parameters
    obtain ⟨-, -, hqubits, -⟩ := mergeRotations_eq_ok hm
    have ha : a.qubits = [a.qubits.headD 0] := (hgates a (by simp)).rotation_qubits hr
    have hqm : m.qubits = a.qubits := by
      rw [hqubits, ha]
      rfl
    show max _ _ ≤ max _ _
    rw [hqm]
    exact max_le_max le_rfl (depthOn_le_cons _ _)

theorem qubits_of_step {gates gates' : List (Gate α)} (h : Step gates gates') :
    ∀ g' ∈ gates', ∀ q ∈ g'.qubits, ∃ g ∈ gates, q ∈ g.qubits := by
  obtain ⟨before, hrule, after⟩ := h
  intro g' hg' q hq
  rcases List.mem_append.1 hg' with hg' | hafter
  · rcases List.mem_append.1 hg' with hbefore | hpart
    · exact ⟨g', by simp [hbefore], hq⟩
    · cases hrule with
      | drop g => exact absurd hpart List.not_mem_nil
      | @exchange a b =>
        refine ⟨g', ?_, hq⟩
        simp only [List.mem_cons, List.not_mem_nil, or_false] at hpart
        rcases hpart with rfl | rfl <;> simp
      | @merge a b m hr hkind _ hm =>
        obtain ⟨-, -, hqubits, -⟩ := mergeRotations_eq_ok hm
        rw [List.mem_singleton.1 hpart, hqubits] at hq
        exact ⟨a, by simp, List.mem_of_mem_take hq⟩
  · exact ⟨g', by simp [hafter], hq⟩

end

/-! ## Over the real numbers -/

theorem prod_fidelity_pos {gates : List (Gate ℝ)} (hgates : ∀ g ∈ gates, g.Built) :
    0 < (gates.map Gate.fidelity).prod := by
  apply List.prod_pos
  intro x hx
  obtain ⟨g, hg, rfl⟩ := List.mem_map.1 hx
  exact (hgates g hg).fidelity.1

/-- No step makes the product of the fidelities smaller. -/
theorem prod_fidelity_le {gates gates' : List (Gate ℝ)} (hgates : ∀ g ∈ gates, g.Built)
    (h : Step gates gates') :
    (gates.map Gate.fidelity).prod ≤ (gates'.map Gate.fidelity).prod := by
  obtain ⟨before, hrule, after⟩ := h
  simp only [List.forall_mem_append] at hgates
  obtain ⟨⟨hbefore, hpart⟩, hafter⟩ := hgates
  simp only [List.map_append, List.prod_append]
  refine mul_le_mul_of_nonneg_right (mul_le_mul_of_nonneg_left ?_ (prod_fidelity_pos hbefore).le)
    (prod_fidelity_pos hafter).le
  cases hrule with
  | drop g => simpa using (hpart g (by simp)).fidelity.2
  | @exchange a b => simp [mul_comm]
  | @merge a b m _ _ _ hm => simp [(fidelity_mergeRotations hm).2]

/-! ## What a run leaves -/

/-- One list of gates is nowhere worse than another. -/
structure NoWorse (gates gates' : List (Gate ℝ)) : Prop where
  length : gates'.length ≤ gates.length
  count : ∀ name, gates'.countP (fun g => g.kind.name = name) ≤
    gates.countP fun g => g.kind.name = name
  depth : ∀ f, depthOn f (gates'.map Gate.qubits) ≤ depthOn f (gates.map Gate.qubits)
  fidelity : (gates.map Gate.fidelity).prod ≤ (gates'.map Gate.fidelity).prod
  qubits : ∀ g' ∈ gates', ∀ q ∈ g'.qubits, ∃ g ∈ gates, q ∈ g.qubits

theorem NoWorse.refl (gates : List (Gate ℝ)) : NoWorse gates gates :=
  ⟨le_rfl, fun _ => le_rfl, fun _ => le_rfl, le_rfl, fun g hg _ hq => ⟨g, hg, hq⟩⟩

theorem NoWorse.trans {gates gates' gates'' : List (Gate ℝ)} (h : NoWorse gates gates')
    (h' : NoWorse gates' gates'') : NoWorse gates gates'' where
  length := h'.length.trans h.length
  count name := (h'.count name).trans (h.count name)
  depth f := (h'.depth f).trans (h.depth f)
  fidelity := h.fidelity.trans h'.fidelity
  qubits g hg q hq := by
    obtain ⟨g', hg', hq'⟩ := h'.qubits g hg q hq
    exact h.qubits g' hg' q hq'

theorem noWorse_of_step {gates gates' : List (Gate ℝ)} (hgates : ∀ g ∈ gates, g.Built)
    (h : Step gates gates') : NoWorse gates gates' :=
  ⟨length_le_of_step h, countP_name_le h, depthOn_le (wellFormed_of_built hgates) h,
    prod_fidelity_le hgates h, qubits_of_step h⟩

/-- **Steps make nothing worse**, however many there are. -/
theorem noWorse_of_steps {gates gates' : List (Gate ℝ)} (hgates : ∀ g ∈ gates, g.Built)
    (h : Steps gates gates') : NoWorse gates gates' := by
  induction h with
  | refl => exact .refl gates
  | tail hsteps hstep ih =>
    exact ih.trans (noWorse_of_step (Steps.forall_mem mergeClosed_built hsteps hgates) hstep)

/-- Over the real numbers every step keeps constructed gates, and merging never fails. -/
theorem keeps_built : Keeps (α := ℝ) (fun gates => ∀ g ∈ gates, g.Built) fun _ => False where
  wellFormed := wellFormed_of_built
  step hgates hstep := Steps.forall_mem mergeClosed_built (.single hstep) hgates
  merge hgates hr hkind _ := by
    obtain ⟨m, hm, -⟩ := exists_mergeRotations (hgates _ (by simp)) (hgates _ (by simp)) hr hkind
    rw [hm]
    trivial

end Simplification

/-! ## Circuits that gates are added to -/

namespace Circuit

section

variable {α : Type} [Scalar α]

/-- Operations that append constructed gates one by one, or touch no gates. -/
def Operation.Adds : Operation α → Prop
  | append new => ∀ g, new.gate = .ok g → g.Built
  | withGates _ => False
  | _ => True

theorem adds_placed (p : Placement α) : (Operation.append (.placed p)).Adds :=
  fun _ => Placement.built_of_gate

/-- Constructed gates added one by one make a circuit of constructed gates in its register. -/
theorem built_run {ops : List (Operation α)} (hops : ∀ op ∈ ops, op.Adds) {c : Circuit α}
    (hc : c.Built) : (Operation.run ops c).Built := by
  induction ops generalizing c with
  | nil => exact hc
  | cons op ops ih =>
    obtain ⟨hop, hops⟩ := List.forall_mem_cons.1 hops
    refine ih hops (c := (op.carryOut c).2) ?_
    have hleaves := Operation.leaves_carryOut op c
    generalize (op.carryOut c).2 = c' at hleaves ⊢
    cases hleaves with
    | appended hg hinside =>
      exact List.forall_mem_append.2
        ⟨hc, List.forall_mem_singleton.2 ⟨hop _ hg, hinside⟩⟩
    | replaced => exact hop.elim
    | cleared => exact List.forall_mem_nil _
    | refused | measured | measuredAll | marked | mapped => exact hc

end

theorem fidelityOf_eq_prod (gates : List (Gate ℝ)) :
    fidelityOf gates = (gates.map Gate.fidelity).prod := by
  rw [fidelityOf, List.prod_eq_foldl, List.foldl_map]

/-- The fidelity that the books of a circuit show is the product over its gates. -/
theorem Bookkept.fidelity_eq_prod {c : Circuit ℝ} (hc : c.Bookkept) :
    c.fidelity = (c.gates.map Gate.fidelity).prod := by
  rw [hc.fidelity, List.prod_eq_foldl]

end Circuit

namespace Simplification

open Circuit

/-- **Simplification never makes a circuit worse**: not one that constructed gates were added to one
by one, among other operations that hand over no gates, whichever passes are applied and however
often. No name has more gates, the depth is not larger and the fidelity not smaller, registers,
measurements and placement are the same, no qubit is used that was not, and the number of gates that
the run reports as taken away is the difference. -/
theorem run_no_worse (passes : List Pass) (maxSweeps width bits : ℕ) {ops : List (Operation ℝ)}
    (hops : ∀ op ∈ ops, op.Adds) :
    let c := Operation.run ops (blank width bits)
    ∃ o, run passes maxSweeps c = .ok o ∧
      (∀ name, (o.circuit.gateCounts.get? name).getD 0 ≤ (c.gateCounts.get? name).getD 0) ∧
      (∃ before after, c.depth? = some before ∧ o.circuit.depth? = some after ∧ after ≤ before) ∧
      c.fidelity ≤ o.circuit.fidelity ∧
      o.circuit.width = width ∧ o.circuit.bits = bits ∧ o.circuit.measurements = c.measurements ∧
      o.circuit.mapping = c.mapping ∧
      (∀ g' ∈ o.circuit.gates, ∀ q ∈ g'.qubits, ∃ g ∈ c.gates, q ∈ g.qubits) ∧
      o.removed + o.circuit.gates.length = c.gates.length := by
  intro c
  obtain ⟨hwidth, hbits⟩ := registers_run width bits ops
  have hbooks := bookkept_run width bits ops
  have hc : c.Built := built_run hops (built_blank width bits)
  have hgates : ∀ g ∈ c.gates, g.Built := fun g hg => (hc g hg).built
  obtain ⟨o, ho, hsteps, ⟨names, hcircuit⟩, hbefore, hafter⟩ :=
    (keeps_built.run passes maxSweeps hgates).exists_ok
  have hworse := noWorse_of_steps hgates hsteps
  -- all gates stay in the register, as no qubit is new
  have hinside : ∀ g ∈ c.gates, ∀ q ∈ g.qubits, q < c.width := fun g hg => (hc g hg).inside
  have hinside' : ∀ g' ∈ o.circuit.gates, ∀ q ∈ g'.qubits, q < c.width := by
    intro g' hg' q hq
    obtain ⟨g, hg, hq'⟩ := hworse.qubits g' hg' q hq
    exact hinside g hg q hq'
  have hwidth' : o.circuit.width = c.width := by
    rw [hcircuit]
    rfl
  refine ⟨o, ho, fun name => ?_, ⟨_, _, depth?_eq_some_iff.2 hinside,
    depth?_eq_some_iff.2 (by rwa [hwidth']), ?_⟩, ?_, hwidth'.trans hwidth, ?_, ?_, ?_,
    hworse.qubits, ?_⟩
  · rw [getD_gateCounts, getD_gateCounts]
    exact hworse.count name
  · rw [depth_eq hinside, depth_eq (by rwa [hwidth'])]
    exact hworse.depth _
  · have hfidelity : o.circuit.fidelity = (o.circuit.gates.map Gate.fidelity).prod := by
      rw [hcircuit]
      exact (fidelityOf_eq_prod _)
    rw [(hbooks : c.Bookkept).fidelity_eq_prod, hfidelity]
    exact hworse.fidelity
  · rw [hcircuit]
    exact hbits
  · rw [hcircuit]
    rfl
  · rw [hcircuit]
    rfl
  · rw [Outcome.removed, hbefore, hafter]
    exact Nat.sub_add_cancel hworse.length

/-- Two flips of one qubit around a controlled flip of another by a third, all measured. -/
noncomputable def flips : List (Operation ℝ) :=
  [.append (.given (Gate.plain .x [0])), .append (.given (Gate.plain .cnot [1, 2])),
    .append (.given (Gate.plain .x [0])), .measureAll]

theorem run_no_worse_flips : (∀ op ∈ flips, op.Adds) ∧
    let c := Operation.run flips (blank 3 3)
    c.gates = [Gate.plain .x [0], Gate.plain .cnot [1, 2], Gate.plain .x [0]] ∧
    ∃ o, run standardPasses defaultSweeps c = .ok o ∧ c.fidelity ≤ o.circuit.fidelity ∧
      o.circuit.measurements = c.measurements ∧ o.removed + o.circuit.gates.length = 3 := by
  have hops : ∀ op ∈ flips, op.Adds := by
    simp only [flips, List.forall_mem_cons]
    exact ⟨fun _ h => Except.ok.inj h ▸ Gate.built_plain rfl rfl,
      fun _ h => Except.ok.inj h ▸ Gate.built_plain rfl rfl,
      fun _ h => Except.ok.inj h ▸ Gate.built_plain rfl rfl, trivial, List.forall_mem_nil _⟩
  obtain ⟨o, ho, -, -, hfidelity, -, -, hmeasured, -, -, hremoved⟩ :=
    run_no_worse standardPasses defaultSweeps 3 3 hops
  exact ⟨hops, rfl, o, ho, hfidelity, hmeasured, hremoved⟩

end Simplification

end QuantumWorkbench
