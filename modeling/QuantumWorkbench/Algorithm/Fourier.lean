import QuantumWorkbench.Algorithm.Build
import QuantumWorkbench.Gate.Adjoint

/-!
# Fourier transforms

The transform on a register with qubit zero as the least significant bit, up to a global phase. Each
controlled phase is written in rotations about the third axis and controlled negations.
-/

namespace QuantumWorkbench.Fourier

variable {α : Type} [Scalar α]

/-- A phase on the state where both qubits are one, up to a global phase. -/
def controlledPhase (control target : Nat) (angle : α) : List (Placement α) :=
  let half := Scalar.half angle
  [.turn .rz target half, .of .cnot [control, target], .turn .rz target (Scalar.half (-angle)),
    .of .cnot [control, target], .turn .rz control half]

/-- The gates on one qubit: it is put in superposition and turned by every lower qubit, the nearest
first. -/
def qubitGates (target : Nat) : List (Placement α) :=
  .of .h [target] :: (List.range target).reverse.flatMap fun control =>
    controlledPhase control target (Scalar.pi / Scalar.num (1 <<< (target - control)))

/-- The exchanges that reverse the order of the qubits. -/
def reversal (n : Nat) : List (Placement α) :=
  (List.range (n / 2)).map fun q => .of .swap [q, n - 1 - q]

/-- The transform on a register. -/
def circuit (n : Nat) : Except (TaskError α) (Circuit α) :=
  if n = 0 then .error .emptyTransform
  else do
    Circuit.checkRegister n
    Circuit.build n n ((List.range n).reverse.flatMap qubitGates ++ reversal n)

/-- The inverse transform: the inverse gates in reverse order. -/
def inverseCircuit (n : Nat) : Except (TaskError α) (Circuit α) :=
  (circuit n).map fun c => c.withGates (c.gates.reverse.map Gate.inverse)

end QuantumWorkbench.Fourier
