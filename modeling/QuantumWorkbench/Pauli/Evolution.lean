import QuantumWorkbench.Algorithm.Build
import QuantumWorkbench.Pauli.Basic

/-!
# Time evolution

Evolution under a Hamiltonian in equal steps, each a product of the exponentials of its terms. A
single factor is a rotation. A longer product is rotated to the third axis, its parity collected by
controlled negations on the last qubit, turned there, and everything before undone.
-/

namespace QuantumWorkbench.Pauli

variable {α : Type} [Scalar α]

/-- The rotation about the axis of a Pauli matrix. -/
def rotationKind : Pauli → GateKind
  | x => .rx
  | y => .ry
  | z => .rz

/-- The gates that turn the axis of a factor to the third, or back for the opposite quarter turn. -/
def toThirdAxis (quarter : α) (f : PauliFactor) : List (Placement α) :=
  match f.1 with
  | x => [.of .h [f.2]]
  | y => [.turn .rx f.2 quarter]
  | z => []

/-- A controlled negation from the qubit of each factor to that of the next. -/
def parityLadder : List PauliFactor → List (Placement α)
  | a :: b :: rest => .of .cnot [a.2, b.2] :: parityLadder (b :: rest)
  | _ => []

/-- The exponential of a product of several factors. -/
def stringGates (factors : List PauliFactor) (angle : α) : List (Placement α) :=
  let quarter : α := Scalar.pi / Scalar.two
  let ladder := parityLadder factors
  -- what comes after the turn undoes what came before it, in the opposite order
  factors.flatMap (toThirdAxis quarter) ++ ladder ++
    (factors.getLast?.toList.map fun f => .turn .rz f.2 angle) ++ ladder.reverse ++
    factors.reverse.flatMap (toThirdAxis (-quarter))

/-- The exponential of a term over a time step. A constant term adds nothing. -/
def termGates (dt : α) (t : PauliTerm α) : List (Placement α) :=
  let angle := Scalar.two * t.coefficient * dt
  match t.factors with
  | [] => []
  | [f] => [.turn f.1.rotationKind f.2 angle]
  | factors => stringGates factors angle

end QuantumWorkbench.Pauli

namespace QuantumWorkbench.Hamiltonian

variable {α : Type} [Scalar α]

/-- One step of evolution: every term in order. -/
def stepGates (h : Hamiltonian α) (dt : α) : List (Placement α) :=
  h.terms.flatMap (Pauli.termGates dt)

/-- Evolution from the all-zero state in a number of steps. One step is placed on the register, and
its gates are repeated: a step that does not fit is refused however many are asked for. -/
def evolution (h : Hamiltonian α) (time : α) (steps : Nat) : Except (TaskError α) (Circuit α) :=
  if steps = 0 then .error .noSteps
  else
    let n := h.qubits
    if n = 0 then .error .noQubits
    else do
      Circuit.checkRegister n
      let step ← Circuit.build n n (h.stepGates (time / Scalar.num steps))
      return step.withGates (List.replicate steps step.gates).flatten

/-- Evolution from the uniform state, ending with a measurement of every qubit. -/
def simulation (h : Hamiltonian α) (time : α) (steps : Nat) : Except (TaskError α) (Circuit α) := do
  let evolution ← h.evolution time steps
  let n := evolution.width
  let c ← Circuit.build n n ((List.range n).map fun q => .of .h [q])
  let c ← (c.addGates evolution.gates).mapError .circuit
  return c.measureAll

end QuantumWorkbench.Hamiltonian
