import QuantumWorkbench.Index
import QuantumWorkbench.SingularValues.Basic
import QuantumWorkbench.State.Basic

/-!
# Schmidt decomposition

A state of two parts is a matrix, with the low qubits as rows and the others as columns; its
singular values are the Schmidt coefficients.
-/

namespace QuantumWorkbench

/-- The Schmidt coefficients of a state in decreasing order, and the entropy of their squares. -/
structure SchmidtDecomposition (α : Type) where
  valid : Bool
  coefficients : List α
  entropy : α

namespace SchmidtDecomposition

variable {α : Type} [Scalar α]

/-- No decomposition. -/
def invalid : SchmidtDecomposition α := ⟨false, [], 0⟩

/-- The number of coefficients. -/
def rank (d : SchmidtDecomposition α) : Nat := d.coefficients.length

/-- The decomposition with the given singular values: negligible ones are dropped, and the others
are scaled so that their squares sum to one. -/
def ofSingularValues (values : List α) : SchmidtDecomposition α :=
  let found := values.filter fun x => Scalar.tolerance < x
  let sorted := found.mergeSort fun x y => Scalar.atMost y x
  let norm := Scalar.sqrt (Scalar.sum (sorted.map fun x => x * x))
  let coefficients := if 0 < norm then sorted.map fun x => x / norm else sorted
  ⟨true, coefficients, StateVector.entropyOf (coefficients.map fun x => x * x)⟩

end SchmidtDecomposition

namespace StateVector

variable {α : Type} [Scalar α]

/-- The amplitudes as columns by the qubits above the low ones: column `b` holds the amplitudes
whose high bits are `b`. -/
def columnsByHigh (s : StateVector α) (low : Nat) : List (Column α) :=
  let side := Qubit.dimension low
  (List.range (s.dimension / side)).map fun b =>
    (List.range side).map fun a => s.amplitudes.getD (a + side * b) 0

/-- The decomposition with the qubits up to a given one on one side. It is invalid where a state
has fewer than two qubits or the other side is empty, and there is none where the matrix of the
state has no singular values. -/
def schmidt? (s : StateVector α) (last : Nat) : Option (SchmidtDecomposition α) :=
  let low := Index.next last
  if s.width < 2 || s.width ≤ low then some .invalid
  else
    let side := Qubit.dimension low
    (Column.singularValues? side (s.dimension / side) (s.columnsByHigh low)).map
      SchmidtDecomposition.ofSingularValues

end StateVector

end QuantumWorkbench
