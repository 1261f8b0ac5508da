import QuantumWorkbench.Circuit.Basic

/-!
# Placements

A gate to be placed on a circuit: a kind, qubits, and the angle of a rotation. Circuit families are
described as lists of placements. Placing a list stops at the first gate that is refused; what was
placed before stays in the circuit.
-/

namespace QuantumWorkbench

/-- A gate to be placed: a rotation where an angle is given. -/
structure Placement (α : Type) where
  kind : GateKind
  qubits : List Nat
  angle : Option α

namespace Placement

variable {α : Type} [Scalar α]

/-- A gate without an angle. -/
def of (kind : GateKind) (qubits : List Nat) : Placement α := ⟨kind, qubits, none⟩

/-- A rotation of a qubit. -/
def turn (kind : GateKind) (qubit : Nat) (angle : α) : Placement α := ⟨kind, [qubit], some angle⟩

/-- The gate of a placement. -/
def gate (p : Placement α) : Except (CircuitError α) (Gate α) :=
  match p.angle, p.qubits with
  | some angle, [qubit] => Gate.rotation p.kind qubit angle
  | _, qubits => Gate.make p.kind qubits .empty

end Placement

namespace Circuit

variable {α : Type} [Scalar α]

/-- The gate of a placement, checked against the register. -/
def gateFor (c : Circuit α) (p : Placement α) : Except (CircuitError α) (Gate α) := do
  let g ← p.gate
  c.checkGate g
  return g

/-- The gates of a list of placements up to the first that is refused, and the fault. -/
def gatesFor (c : Circuit α) : List (Placement α) → List (Gate α) × Option (CircuitError α)
  | [] => ([], none)
  | p :: ps =>
    match c.gateFor p with
    | .ok g =>
      let (gates, fault) := c.gatesFor ps
      (g :: gates, fault)
    | .error e => ([], some e)

/-- Places the gates of a list in order until one is refused: the circuit as it stands then, and
the fault. -/
def extend (c : Circuit α) (ps : List (Placement α)) : Circuit α × Option (CircuitError α) :=
  let (gates, fault) := c.gatesFor ps
  (c.appendGates gates, fault)

/-- Places all the gates of a list, or none. -/
def placeAll (c : Circuit α) (ps : List (Placement α)) : Except (CircuitError α) (Circuit α) :=
  match c.extend ps with
  | (c, none) => .ok c
  | (_, some e) => .error e

end Circuit

end QuantumWorkbench
