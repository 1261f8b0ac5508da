import QuantumWorkbench.Circuit.Placement

/-!
# Operations on circuits

A circuit is changed by operations, one after another. An operation is carried out in place: it
makes its gate, checks, and then writes one field after the other. Where it is refused, what it
wrote before would stay written; `Operation.apply` says what an operation makes of a circuit as a
whole.
-/

namespace QuantumWorkbench

/-- A gate that is to be appended. -/
inductive NewGate (α : Type) where
  /-- A gate by its kind and qubits, with the angle of a rotation. -/
  | placed (p : Placement α)
  /-- A gate at hand. -/
  | given (g : Gate α)
  /-- A gate with parameters, on control qubits and a target after them. -/
  | controlled (kind : GateKind) (controls : List Nat) (target : Nat) (parameters : Parameters α)
  /-- A gate with a matrix of its own, by real and imaginary parts. -/
  | custom (qubits : List Nat) (re im : List α)

/-- The gate itself, unless it cannot be made. -/
def NewGate.gate {α : Type} [Scalar α] : NewGate α → Except (CircuitError α) (Gate α)
  | placed p => p.gate
  | given g => .ok g
  | controlled kind controls target parameters => Gate.make kind (controls ++ [target]) parameters
  | custom qubits re im => Gate.ofParts qubits re im

namespace Circuit

/-- The operations on a circuit. -/
inductive Operation (α : Type) where
  | append (new : NewGate α)
  | measure (qubit bit : Nat)
  | measureAll
  | withGates (gates : List (Gate α))
  | markOptimized (passes : List String)
  | withMapping (mapping : SortedMap Nat Nat)
  | clear

variable {α : Type} [Scalar α]

/-- What an operation makes of a circuit, unless it is refused. -/
def Operation.apply (c : Circuit α) : Operation α → Except (CircuitError α) (Circuit α)
  | append new => do c.addGate (← new.gate)
  | measure qubit bit => c.measure qubit bit
  | measureAll => .ok c.measureAll
  | withGates gates => .ok (c.withGates gates)
  | markOptimized passes => .ok (c.markOptimized passes)
  | withMapping mapping => .ok (c.withMapping mapping)
  | clear => .ok c.clear

/-! ## In place -/

/-- A change of a circuit in place. Where it is refused, what it wrote before stays written. -/
abbrev Change (α : Type) := ExceptT (CircuitError α) (StateM (Circuit α))

namespace Change

/-- The answer to a change, and the circuit as the change leaves it. -/
def exec {β : Type} (x : Change α β) (c : Circuit α) : Except (CircuitError α) β × Circuit α :=
  (x.run.run c).run

/-- Refuses a qubit beyond the register. -/
def checkQubit (q : Nat) : Change α Unit := do
  let c ← get
  if c.width ≤ q then throw (.qubitOutOfRange q c.width)

/-- Refuses a classical bit beyond the classical register. -/
def checkBit (bit : Nat) : Change α Unit := do
  let c ← get
  if c.bits ≤ bit then throw (.bitOutOfRange bit c.bits)

/-- Stores a measurement. -/
def record (m : Measurement) : Change α Unit :=
  modify fun c => { c with measurements := c.measurements ++ [m] }

/-- Stores the name of a pass, unless it is there. -/
def note (pass : String) : Change α Unit :=
  modify fun c => if c.passes.contains pass then c else { c with passes := c.passes ++ [pass] }

/-- Checks the qubits of a gate, then counts its fidelity, then stores it. -/
def push (g : Gate α) : Change α Unit := do
  g.qubits.forM checkQubit
  modify fun c => { c with fidelity := c.fidelity * g.fidelity }
  modify fun c => { c with gates := c.gates ++ [g] }

end Change

namespace Operation

open Change

/-- An operation, step by step. -/
def change : Operation α → Change α Unit
  | append new => do push (← MonadExcept.ofExcept new.gate)
  | measure qubit bit => do
    checkQubit qubit
    checkBit bit
    record ⟨qubit, bit⟩
  | measureAll => do
    let c ← get
    (List.range (min c.width c.bits)).forM fun q => record ⟨q, q⟩
  | withGates gates => modify fun c => c.withGates gates
  | markOptimized passes => do
    modify fun c => { c with optimized := true }
    passes.forM note
  | withMapping mapping => modify fun c => c.withMapping mapping
  | clear => do
    modify fun c => { c with gates := [] }
    modify fun c => { c with measurements := [] }
    modify fun c => { c with fidelity := 1 }

/-- The answer to an operation, and the circuit as the operation leaves it. -/
def carryOut (op : Operation α) (c : Circuit α) : Except (CircuitError α) Unit × Circuit α :=
  op.change.exec c

/-- The circuit after a list of operations. A refused operation does not stop the list. -/
def run (ops : List (Operation α)) (c : Circuit α) : Circuit α :=
  ops.foldl (fun c op => (op.carryOut c).2) c

/-- The list of gates that an operation hands over whole, in place of an earlier one. -/
def handOver (gates : List (Gate α)) : Operation α → List (Gate α)
  | withGates gates => gates
  | clear => []
  | _ => gates

/-- The gates that a list of operations handed over whole and not cleared since. -/
def handed (ops : List (Operation α)) : List (Gate α) := ops.foldl handOver []

end Operation

end Circuit

end QuantumWorkbench
