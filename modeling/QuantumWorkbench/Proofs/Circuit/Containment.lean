import Mathlib
import QuantumWorkbench.Circuit.Depth
import QuantumWorkbench.Proofs.Circuit.Operations
import QuantumWorkbench.Proofs.Simulation

/-!
# Gates inside the register

A gate that is appended has been checked against the register; a list of gates that is handed over
whole has not. So a circuit that a row of operations leaves keeps to its register exactly where the
list that was handed over last does, and then it has a depth and is simulated without a fault.
-/

namespace QuantumWorkbench.Circuit

variable {α : Type} [Scalar α]

/-! ## Gates handed over and gates appended -/

/-- The gates of a circuit are those that were handed over, and after them gates that were checked
against the register. -/
def Extends (handed : List (Gate α)) (c : Circuit α) : Prop :=
  ∃ appended, c.gates = handed ++ appended ∧ ∀ g ∈ appended, ∀ q ∈ g.qubits, q < c.width

/-- Only handing over and clearing replace the gates, and neither is refused. -/
theorem Extends.leaves {handed : List (Gate α)} {c c' : Circuit α} {op : Operation α}
    (hc : Extends handed c) (h : op.Leaves c c') : Extends (op.handOver handed) c' := by
  obtain ⟨appended, hgates, hinside⟩ := hc
  cases h with
  | refused hrefused =>
    cases op with
    | withGates | clear => cases hrefused
    | _ => exact ⟨appended, hgates, hinside⟩
  | @appended _ g _ hg =>
    refine ⟨appended ++ [g], ?_, ?_⟩
    · rw [appendGates, hgates, List.append_assoc]
      rfl
    · exact List.forall_mem_append.2 ⟨hinside, List.forall_mem_singleton.2 hg⟩
  | replaced gates => exact ⟨[], (List.append_nil _).symm, List.forall_mem_nil _⟩
  | cleared => exact ⟨[], rfl, List.forall_mem_nil _⟩
  | measured | measuredAll | marked | mapped => exact ⟨appended, hgates, hinside⟩

theorem Extends.run {handed : List (Gate α)} {c : Circuit α} (hc : Extends handed c)
    (ops : List (Operation α)) :
    Extends (ops.foldl Operation.handOver handed) (Operation.run ops c) := by
  induction ops generalizing handed c with
  | nil => exact hc
  | cons op ops ih => exact ih (hc.leaves (Operation.leaves_carryOut op c))

/-! ## Depth and simulation -/

omit [Scalar α] in
theorem depth?_eq_some_iff {c : Circuit α} :
    c.depth? = some c.depth ↔ ∀ g ∈ c.gates, ∀ q ∈ g.qubits, q < c.width := by
  simp [depth?, inRegister]

/-- Where its gates lie in the register, the simulation of a circuit refuses at most the register. -/
theorem state_cases [AmplitudeStore α] {c : Circuit α}
    (hinside : ∀ g ∈ c.gates, ∀ q ∈ g.qubits, q < c.width) {limit : ℕ}
    (hword : c.width < 64 ∨ limit < 64) :
    (∃ s, c.state limit = .ok s) ∨ c.state limit = .error (.tooWide c.width limit) ∨
      c.state limit = .error (.noStorage c.width) := by
  cases hsimulated : c.simulated limit with
  | true =>
    have hn := width_lt_of_simulated hword hsimulated
    exact Or.inl ⟨_, state_of_inside hinside hn hsimulated⟩
  | false =>
    right
    rw [state_of_not_simulated hsimulated]
    split
    · exact Or.inl rfl
    · exact Or.inr rfl

/-- **Where the gates of a circuit lie**, after any row of operations: they keep to the register
exactly where those do that were handed over as a list. Elsewhere the circuit has no depth; and
where they keep to it, the simulation of a register narrower than a word refuses at most the
register itself. -/
theorem run_inside_iff [AmplitudeStore α] (width bits : ℕ) (ops : List (Operation α)) :
    let c := Operation.run ops (blank width bits)
    let inside := ∀ g ∈ Operation.handed ops, ∀ q ∈ g.qubits, q < width
    ((∀ g ∈ c.gates, ∀ q ∈ g.qubits, q < c.width) ↔ inside) ∧ (c.depth? = some c.depth ↔ inside) ∧
      (inside → ∀ limit, width < 64 ∨ limit < 64 →
        (∃ s, c.state limit = .ok s) ∨ c.state limit = .error (.tooWide width limit) ∨
          c.state limit = .error (.noStorage width)) := by
  intro c inside
  obtain ⟨hwidth, -⟩ := registers_run width bits ops
  obtain ⟨appended, hgates, happended⟩ : Extends (Operation.handed ops) c :=
    Extends.run ⟨[], rfl, List.forall_mem_nil _⟩ ops
  have hinside : (∀ g ∈ c.gates, ∀ q ∈ g.qubits, q < c.width) ↔ inside := by
    rw [hgates, List.forall_mem_append, and_iff_left happended]
    exact iff_of_eq (by rw [hwidth])
  refine ⟨hinside, depth?_eq_some_iff.trans hinside, fun h limit hword => ?_⟩
  rw [← hwidth] at hword ⊢
  exact state_cases (hinside.2 h) hword

/-- A flip of a qubit that a circuit of two does not have, handed over to it in a list. -/
theorem withGates_beyond :
    let g : Gate Float := Gate.plain .x [5]
    let c := Operation.run [.withGates [g]] (blank 2 2)
    Gate.make .x [5] .empty = .ok g ∧ new? 2 2 = some (blank 2 2 : Circuit Float) ∧
      (¬ ∀ g ∈ c.gates, ∀ q ∈ g.qubits, q < c.width) ∧ c.depth? = none ∧
      c.state defaultWidthLimit = .error (.beyondVector 4) := by
  intro g c
  have houtside : ¬ ∀ g ∈ c.gates, ∀ q ∈ g.qubits, q < c.width := by
    intro hinside
    exact absurd (hinside g List.mem_cons_self 5 List.mem_cons_self) (by decide)
  exact ⟨rfl, rfl, houtside, rfl, rfl⟩

/-- On a register as wide as a word the vector has one entry, and a gate inside reaches beyond. -/
example :
    (Operation.run [.append (.placed (.of .x [0]))] (blank 64 64 : Circuit Float)).state 64 =
      .error (.beyondVector 1) := rfl

end QuantumWorkbench.Circuit
