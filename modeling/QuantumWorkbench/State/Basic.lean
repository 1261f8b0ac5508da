import QuantumWorkbench.Amplitude
import QuantumWorkbench.Circuit.Error
import QuantumWorkbench.Index
import QuantumWorkbench.Storage

/-!
# Pure states

A state of `n` qubits is a vector of `2ⁿ` amplitudes; bit `q` of a basis index is the value of qubit
`q`. The entropy and the coherence of the outcome distribution are computed once, when the vector is
made. A vector need not have length one.
-/

namespace QuantumWorkbench

/-- The reasons for which an operation on states is refused. -/
inductive StateError where
  /-- A qubit beyond the state. -/
  | qubitOutOfRange (qubit width : Nat)
  /-- A number of amplitudes that is no power of two. -/
  | badDimension (dimension : Nat)
  /-- Two states of different width. -/
  | widthMismatch (expected actual : Nat)
  /-- A register wider than the simulation accepts. -/
  | tooWide (width limit : Nat)
  /-- A state or a classical register that cannot be stored. -/
  | noStorage (width : Nat)
  /-- A basis index beyond the vector. -/
  | beyondVector (dimension : Nat)
  deriving DecidableEq, Repr

/-- The wording of a fault. -/
def StateError.message : StateError → String
  | qubitOutOfRange qubit width => s!"Invalid qubit index {qubit} for {width}-qubit state"
  | badDimension dimension => s!"Invalid state dimension {dimension}, expected power of 2"
  | widthMismatch expected actual =>
    s!"Dimension mismatch: expected {expected} qubits, got {actual}"
  | tooWide width limit =>
    s!"Invalid argument: {width} qubits exceeds simulator limit of {limit}"
  | noStorage width => s!"Out of storage for a register of {width}"
  | beyondVector dimension => s!"A basis index lies beyond the {dimension} amplitudes of a state"

/-! ## Measures of a vector -/

namespace StateVector

variable {α : Type} [Scalar α]

/-- Adds the part of one weight to an entropy in bits; a weight up to the tolerance adds nothing. -/
@[inline] def addEntropy (entropy p : α) : α :=
  if Scalar.tolerance < p then entropy + -p * Scalar.log2 p else entropy

/-- The entropy in bits of a distribution. -/
def entropyOf (weights : List α) : α := weights.foldl addEntropy (-0)

/-- The entropy of the outcomes of a vector. -/
@[specialize] def outcomeEntropy (amplitudes : Array (Amplitude α)) : α :=
  amplitudes.foldl (fun entropy a => addEntropy entropy a.probability) (-0)

/-- The sum of the absolute values off the diagonal of the density matrix: the square of the sum of
the magnitudes without the sum of their squares, and at least zero. -/
@[specialize] def coherenceOf (amplitudes : Array (Amplitude α)) : α :=
  let total := amplitudes.foldl (fun sum a => sum + a.magnitude) 0
  let squares := amplitudes.foldl (fun sum a => sum + a.magnitude * a.magnitude) 0
  let excess := total * total - squares
  if 0 < excess then excess else 0

end StateVector

/-! ## States -/

/-- A vector of amplitudes over the basis of a register, with its entropy and coherence. -/
structure StateVector (α : Type) where
  amplitudes : Array (Amplitude α)
  width : Nat
  entropy : α
  coherence : α

namespace StateVector

variable {α : Type} [Scalar α]

/-- The state of a vector, with its measures computed. -/
@[specialize] def measured (amplitudes : Array (Amplitude α)) (width : Nat) : StateVector α where
  amplitudes
  width
  entropy := outcomeEntropy amplitudes
  coherence := coherenceOf amplitudes

/-- The state of a vector whose length is a power of two. -/
@[specialize] def ofAmplitudes (amplitudes : Array (Amplitude α)) :
    Except StateError (StateVector α) :=
  let dimension := amplitudes.size
  let width := Nat.log2 dimension
  if dimension = Qubit.dimension width then .ok (measured amplitudes width)
  else .error (.badDimension dimension)

/-- The basis state of an index, taken modulo the dimension. One outcome is certain, so both
measures are zero. -/
def basis (width index : Nat) : StateVector α where
  amplitudes :=
    (Array.replicate (Qubit.dimension width) 0).setIfInBounds (index % Qubit.dimension width) 1
  width
  entropy := 0
  coherence := 0

/-- The state with every qubit at zero. -/
def zero (width : Nat) : StateVector α := basis width 0

/-- The basis state of an index, unless it cannot be stored. -/
def storedBasis (width index : Nat) : Except StateError (StateVector α) :=
  if Storage.holdsPairs (Qubit.dimension width) then .ok (basis width index)
  else .error (.noStorage width)

/-- The number of amplitudes. -/
def dimension (s : StateVector α) : Nat := s.amplitudes.size

/-- The weights of the outcomes, in the order of the basis. -/
def weights (s : StateVector α) : List α := s.amplitudes.toList.map Amplitude.probability

/-- The amplitude of a basis index, if the state has it. -/
def amplitude? (s : StateVector α) (index : Nat) : Option (Amplitude α) := s.amplitudes[index]?

/-- The weight of a basis index, zero beyond the state. -/
def probability (s : StateVector α) (index : Nat) : α :=
  ((s.amplitude? index).map Amplitude.probability).getD 0

/-- The outcomes whose weight reaches the tolerance. -/
@[specialize] def likelyOutcomes (s : StateVector α) : List (Nat × α) :=
  s.dimension.foldRev (fun index _ outcomes =>
    let p := (s.amplitudes.getD index 0).probability
    if Scalar.tolerance ≤ p then (index, p) :: outcomes else outcomes) []

/-- The length of the vector. -/
def norm (s : StateVector α) : α := Scalar.sqrt (Scalar.sum s.weights)

/-- The state scaled to length one; a vector shorter than the tolerance stays as it is. -/
def normalized (s : StateVector α) : StateVector α :=
  let norm := s.norm
  if norm < Scalar.tolerance then s
  else measured (s.amplitudes.map fun a => a.scaleDown norm) s.width

/-- The product of two states; the second takes the low qubits. The width is a 64-bit count. -/
def tensor (s t : StateVector α) : StateVector α :=
  measured (s.amplitudes.flatMap fun a => t.amplitudes.map fun b => a * b)
    (Index.wrap (s.width + t.width))

/-- The likely outcomes are found among the weights with their indices. -/
theorem likelyOutcomes_eq (s : StateVector α) :
    s.likelyOutcomes =
      (s.weights.zipIdx.map fun (p, index) => (index, p)).filter fun e =>
        Scalar.tolerance ≤ e.2 := by
  have hfold : ∀ n ≤ s.dimension, ∀ outcomes : List (Nat × α),
      n.foldRev (fun index _ outcomes =>
        let p := (s.amplitudes.getD index 0).probability
        if Scalar.tolerance ≤ p then (index, p) :: outcomes else outcomes) outcomes =
      (((s.weights.take n).zipIdx.map fun (p, index) => (index, p)).filter fun e =>
        Scalar.tolerance ≤ e.2) ++ outcomes := by
    intro n
    induction n with
    | zero => intros; rfl
    | succ n ih =>
      intro hn outcomes
      have hlt : n < s.amplitudes.size := hn
      have hweight : s.weights.take (n + 1) =
          s.weights.take n ++ [s.amplitudes[n].probability] := by
        rw [List.take_add_one]
        simp [weights, hlt]
      have hlast : s.amplitudes.getD n 0 = s.amplitudes[n] := by simp [hlt]
      rw [Nat.foldRev_succ, ih (Nat.le_of_succ_le hn), hweight, hlast]
      simp only [List.zipIdx_append, List.map_append, List.filter_append, List.append_assoc]
      by_cases h : Scalar.tolerance ≤ s.amplitudes[n].probability <;>
        simp [h, weights, Nat.min_eq_left (Nat.le_of_lt hlt)]
  rw [likelyOutcomes, hfold _ (Nat.le_refl _), List.append_nil, List.take_of_length_le]
  simp [weights, dimension]

end StateVector

end QuantumWorkbench
