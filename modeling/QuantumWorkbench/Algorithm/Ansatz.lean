import QuantumWorkbench.Algorithm.Build

/-!
# Layered ansatz

A circuit with free angles. Each layer turns every qubit about the second and the third axis,
entangles neighbours by controlled negations, and turns every qubit about the second axis again. The
angles are taken from one list, layer by layer.
-/

namespace QuantumWorkbench.Ansatz

variable {α : Type} [Scalar α]

/-- The number of angles of one qubit in one layer. -/
def anglesPerQubit : Nat := 3

/-- The number of angles of an ansatz, as a 64-bit count. -/
def parameterCount (n layers : Nat) : Nat := Index.wrap (anglesPerQubit * n * layers)

/-- A controlled negation from each qubit to the next. -/
def ladder (n : Nat) : List (Placement α) :=
  (List.range' 1 (n - 1)).map fun q => .of .cnot [q - 1, q]

/-- Turns of qubits about the second and the third axis by pairs of angles. -/
def turnPairs : Nat → List α → List (Placement α)
  | q, a :: b :: rest => .turn .ry q a :: .turn .rz q b :: turnPairs (q + 1) rest
  | _, _ => []

/-- One layer from its angles: a pair for each qubit, then a closing one for each. -/
def layer (n : Nat) (angles : List α) : List (Placement α) :=
  turnPairs 0 (angles.take (2 * n)) ++ ladder n ++
    (angles.drop (2 * n)).zipIdx.map fun (a, q) => .turn .ry q a

/-- A number of layers from a list of angles. -/
def layersOf (n : Nat) : Nat → List α → List (Placement α)
  | 0, _ => []
  | layers + 1, angles =>
    layer n (angles.take (anglesPerQubit * n)) ++
      layersOf n layers (angles.drop (anglesPerQubit * n))

/-- The ansatz of a list with the right number of angles. -/
def circuit (n layers : Nat) (angles : List α) : Except (TaskError α) (Circuit α) :=
  if n = 0 then .error .emptyAnsatz
  else
    let expected := parameterCount n layers
    if angles.length = expected then do
      Circuit.checkRegister n
      Circuit.build n n (layersOf n (angles.length / (anglesPerQubit * n)) angles)
    else .error (.parameterCount expected n layers angles.length)

end QuantumWorkbench.Ansatz
