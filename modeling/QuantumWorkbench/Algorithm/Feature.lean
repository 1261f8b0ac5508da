import QuantumWorkbench.Algorithm.Build
import QuantumWorkbench.Text.Blank

/-!
# Feature loading

Numbers put on qubits, one qubit for each: as angles, as shares of a vector of length one, or as
bits by a threshold. A small classifier adds one trainable layer.
-/

namespace QuantumWorkbench

/-- How features are put on qubits. -/
inductive FeatureEncoding where
  | angle | amplitude | basis
  deriving DecidableEq, Repr

namespace FeatureEncoding

/-- The name of an encoding. -/
def name : FeatureEncoding → String
  | angle => "angle"
  | amplitude => "amplitude"
  | basis => "basis"

/-- The encodings in their usual order. -/
def all : List FeatureEncoding := [angle, amplitude, basis]

/-- The ending that a name may carry. -/
def ending : List Char := "_encoding".toList

/-- A list without an ending, where it has that ending. -/
def dropEnding (ending cs : List Char) : List Char :=
  if ending.isSuffixOf cs then cs.take (cs.length - ending.length) else cs

/-- The encoding of a name, with or without the ending; case and white space around it do not
matter. -/
def ofName? (text : String) : Option FeatureEncoding :=
  let key := dropEnding ending (Text.lower (Text.trim text)).toList
  all.find? fun e => e.name.toList = key

/-- The encoding of a name, or the fault that there is none. -/
def read {α : Type} (text : String) : Except (TaskError α) FeatureEncoding :=
  match ofName? text with
  | some encoding => .ok encoding
  | none => .error (.unknownEncoding text)

/-- The encoding unless another is chosen. -/
def standard : FeatureEncoding := angle

variable {α : Type} [Scalar α]

/-- Features above this count as ones. -/
def threshold : α := 1 / Scalar.two

/-- The gates that load features. -/
def placements (encoding : FeatureEncoding) (features : List α) :
    Except (TaskError α) (List (Placement α)) :=
  match features.find? fun x => !Scalar.isFinite x with
  | some x => .error (.badFeature x)
  | none =>
    match encoding with
    | angle => .ok (features.zipIdx.map fun (x, q) => .turn .ry q (Scalar.pi * x))
    | amplitude =>
      let norm := Scalar.sqrt (Scalar.sum (features.map fun x => x * x))
      if norm == 0 then .error .zeroFeatures
      else .ok <| features.zipIdx.map fun (x, q) =>
        .turn .ry q (Scalar.two * Scalar.arcsin (Scalar.abs (x / norm)))
    | basis => .ok <| (features.zipIdx.filter fun (x, _) => threshold < x).map fun (_, q) =>
        .of .x [q]

/-- A circuit with a qubit for each feature that loads them. -/
def circuit (encoding : FeatureEncoding) (features : List α) : Except (TaskError α) (Circuit α) :=
  if features.isEmpty then .error .noFeatures
  else do Circuit.build features.length features.length (← encoding.placements features)

/-- Turns of qubits by weights, two for each qubit, as far as the weights and the qubits reach. -/
def weightTurns : List Nat → List α → List (Placement α)
  | q :: qs, a :: b :: rest => .turn .ry q a :: .turn .rz q b :: weightTurns qs rest
  | q :: _, [a] => [.turn .ry q a]
  | _, _ => []

/-- The classifier: loaded features, one layer of weights, controlled negations between neighbours,
and a measurement of every qubit. -/
def classifier (encoding : FeatureEncoding) (features weights : List α) :
    Except (TaskError α) (Circuit α) := do
  let c ← encoding.circuit features
  let n := features.length
  let ladder := (List.range' 1 (n - 1)).map fun q => Placement.of .cnot [q - 1, q]
  let c ← (c.placeAll (weightTurns (List.range n) weights ++ ladder)).mapError .circuit
  return c.measureAll

end FeatureEncoding

end QuantumWorkbench
