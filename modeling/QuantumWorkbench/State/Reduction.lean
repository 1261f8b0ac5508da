import QuantumWorkbench.State.Basic

/-!
# Reduced states

Tracing qubits out leaves the distribution of the others: the weights of basis indices that agree on
the kept qubits are added up. The reduced amplitudes are the square roots of these sums, so the
phases are lost.
-/

namespace QuantumWorkbench.StateVector

variable {α : Type} [Scalar α]

/-- The qubits of a register that are not traced out, in increasing order. -/
def keptQubits (width : Nat) (traced : List Nat) : List Nat :=
  (List.range width).filter fun q => !traced.contains q

/-- The number that the listed bits of an index spell, the first bit being the lowest. -/
def readBits (kept : List Nat) (index : Nat) : Nat :=
  kept.zipIdx.foldl (fun acc (q, place) =>
    if Qubit.isSet index q then acc ||| Qubit.mask place else acc) 0

/-- Adds the weight of each basis index to the sum at its reduced index. -/
def marginal (kept : List Nat) (weights : List α) : Array α :=
  weights.zipIdx.foldl (fun sums (p, index) =>
    let r := readBits kept index
    sums.setIfInBounds r (sums.getD r 0 + p)) (Array.replicate (Qubit.dimension kept.length) 0)

/-- Whether each basis index of a state has a reduced index among those of the kept qubits. That
can only fail where their number exceeds a word. -/
def reducesTo (s : StateVector α) (kept : List Nat) : Bool :=
  kept.length < 64 ||
    (List.range s.dimension).all fun index => readBits kept index < Qubit.dimension kept.length

/-- The state without the traced qubits. The first listed qubit outside the state is reported. -/
def partialTrace (s : StateVector α) (traced : List Nat) : Except StateError (StateVector α) :=
  match traced.find? fun q => s.width ≤ q with
  | some q => .error (.qubitOutOfRange q s.width)
  | none =>
    let kept := keptQubits s.width traced
    if !Storage.holdsScalars (Qubit.dimension kept.length) then .error (.noStorage kept.length)
    else if !s.reducesTo kept then .error (.beyondVector (Qubit.dimension kept.length))
    else
      let sums := marginal kept s.weights
      ofAmplitudes (sums.map fun p => Amplitude.real (Scalar.sqrt p))

end QuantumWorkbench.StateVector
