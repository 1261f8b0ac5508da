import QuantumWorkbench.Qubit
import QuantumWorkbench.Scalar.Basic

/-!
# Faults in gates and circuits

Why a gate or a measurement is refused.
-/

namespace QuantumWorkbench

/-- The reasons for which a gate or a circuit operation is refused. -/
inductive CircuitError (α : Type) where
  /-- A qubit beyond the register. -/
  | qubitOutOfRange (qubit width : Nat)
  /-- A classical bit beyond the classical register. -/
  | bitOutOfRange (bit width : Nat)
  /-- A gate on the wrong number of qubits. -/
  | wrongArity (gate : String) (expected actual : Nat)
  /-- One qubit listed twice in a gate. -/
  | repeatedQubit (qubit : Nat)
  /-- A fidelity that is not above zero and at most one. -/
  | badFidelity (value : α)
  /-- An angle given to a gate that does not rotate. -/
  | notRotation (gate : String)
  /-- A matrix or a placement of qubits that cannot be stored. -/
  | noStorage (qubits : Nat)

/-- The wording of a fault. -/
def CircuitError.message {α : Type} [NumberText α] : CircuitError α → String
  | qubitOutOfRange qubit width =>
    s!"Invalid qubit index {qubit}: circuit has only {width} qubits"
  | bitOutOfRange bit width =>
    s!"Invalid classical bit {bit}: circuit has only {width} classical bits"
  | wrongArity gate expected actual =>
    s!"Gate '{gate}' requires {expected} qubits, but {actual} were provided"
  | repeatedQubit qubit => "Duplicate qubit " ++ Qubit.label qubit ++ " in gate operation"
  | badFidelity value =>
    "Invalid argument: gate fidelity must be in (0, 1], got " ++ NumberText.shortest value
  | notRotation gate => s!"Invalid argument: '{gate}' is not a rotation gate"
  | noStorage qubits => s!"Out of storage for {qubits} qubits"

end QuantumWorkbench
