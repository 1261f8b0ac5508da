import QuantumWorkbench.State.Basic

/-!
# Measures of states

Purity of the outcome distribution, concurrence of a pair of qubits, and the fidelity and the
distance of two states of one width.
-/

namespace QuantumWorkbench.StateVector

variable {α : Type} [Scalar α]

/-- The sum of the squared weights. -/
def purity (s : StateVector α) : α := Scalar.sum (s.weights.map fun p => p * p)

/-- How strongly two qubits are entangled; zero for a state of another width. -/
def concurrence (s : StateVector α) : α :=
  if s.width = 2 then
    let a index := s.amplitudes.getD index 0
    Scalar.two * (a 0 * a 3 - a 1 * a 2).magnitude
  else 0

/-- Refuses a pair of states of different width. -/
def checkWidth (s t : StateVector α) : Except StateError Unit :=
  if s.width = t.width then .ok () else .error (.widthMismatch s.width t.width)

/-- The squared overlap of two states. -/
def fidelity (s t : StateVector α) : Except StateError α := do
  checkWidth s t
  let products := List.zipWith (fun a b => a.conj * b) s.amplitudes.toList t.amplitudes.toList
  return (Amplitude.sum products).probability

/-- Half the sum of the differences of the weights. -/
def distance (s t : StateVector α) : Except StateError α := do
  checkWidth s t
  let gaps := List.zipWith (fun p q => Scalar.abs (p - q)) s.weights t.weights
  return 1 / Scalar.two * Scalar.sum gaps

end QuantumWorkbench.StateVector
