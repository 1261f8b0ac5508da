import QuantumWorkbench.Gate.Kind
import QuantumWorkbench.Gate.Matrix
import QuantumWorkbench.Qubit
import QuantumWorkbench.SortedMap

/-!
# Closed-form gate matrices

The matrix of a gate from its kind and its parameters. A rotation without an angle turns by zero;
kinds without a closed form act as the identity on their qubits.
-/

namespace QuantumWorkbench

/-- The parameters of a gate by name. -/
abbrev Parameters (α : Type) := SortedMap String α

namespace GateKind

variable {α : Type} [Scalar α]

/-- The rotation angle among the parameters, zero where it is missing. -/
def angleIn (k : GateKind) (parameters : Parameters α) : α :=
  (k.angleKey.bind parameters.get?).getD 0

/-- The matrix of a kind on a number of qubits. -/
def unitary (k : GateKind) (parameters : Parameters α) (qubits : Nat) : SquareMatrix α :=
  let angle := k.angleIn parameters
  let half := Scalar.half angle
  let r := Amplitude.real Scalar.invSqrtTwo
  let eighth : α := Scalar.pi / Scalar.num 4
  let cosine := Amplitude.real (Scalar.cos half)
  match k with
  | h => .ofRows [[r, r], [r, -r]]
  | x => .ofRows [[0, 1], [1, 0]]
  | y => .ofRows [[0, -Amplitude.i], [Amplitude.i, 0]]
  | z => .ofRows [[1, 0], [0, -1]]
  | s => .ofRows [[1, 0], [0, Amplitude.i]]
  | sdg => .ofRows [[1, 0], [0, -Amplitude.i]]
  | t => .ofRows [[1, 0], [0, Amplitude.unit eighth]]
  | tdg => .ofRows [[1, 0], [0, Amplitude.unit (-eighth)]]
  | rx =>
    let sine : Amplitude α := ⟨0, -Scalar.sin half⟩
    .ofRows [[cosine, sine], [sine, cosine]]
  | ry =>
    let sine := Amplitude.real (Scalar.sin half)
    .ofRows [[cosine, -sine], [sine, cosine]]
  | rz => .ofRows [[Amplitude.unit (Scalar.half (-angle)), 0], [0, Amplitude.unit half]]
  | cnot => .exchange 4 2 3
  | cz => .ofRows [[1, 0, 0, 0], [0, 1, 0, 0], [0, 0, 1, 0], [0, 0, 0, -1]]
  | swap => .exchange 4 1 2
  | iswap => .ofRows [[1, 0, 0, 0], [0, 0, Amplitude.i, 0], [0, Amplitude.i, 0, 0], [0, 0, 0, 1]]
  | toffoli => .exchange 8 6 7
  | fredkin => .exchange 8 5 6
  | identity | custom | named _ => .identity (Qubit.dimension qubits)

/-- Whether the matrix of a kind on a number of qubits can be stored. -/
def hasStorage (k : GateKind) (qubits : Nat) : Bool :=
  match k with
  | identity | custom | named _ => SquareMatrix.hasStorage (Qubit.dimension qubits)
  | _ => true

/-- The matrix of a kind on a number of qubits, if it can be stored. -/
def unitary? (k : GateKind) (parameters : Parameters α) (qubits : Nat) :
    Option (SquareMatrix α) :=
  if k.hasStorage qubits then some (k.unitary parameters qubits) else none

end GateKind

namespace SquareMatrix

variable {α : Type}

/-- The matrix with the given real and imaginary parts as its entries, if they fill a square that
acts on the given number of qubits. -/
def ofParts? (re im : List α) (qubits : Nat) : Option (SquareMatrix α) :=
  let side := sideOf re.length
  if re.length = im.length && side = Qubit.dimension qubits then
    some ⟨side, (List.zipWith Amplitude.mk re im).toArray⟩
  else none

end SquareMatrix

end QuantumWorkbench
