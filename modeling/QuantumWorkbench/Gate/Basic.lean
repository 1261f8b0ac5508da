import QuantumWorkbench.Circuit.Error
import QuantumWorkbench.Gate.Unitary

/-!
# Gates

A gate is a kind, the qubits it acts on, its parameters, a matrix of its own where the kind does not
give one, and its fidelity. The constructors check the number of qubits, that no qubit is listed
twice, that the fidelity lies above zero and at most at one, and that the matrix can be stored.
-/

namespace QuantumWorkbench

/-- A gate on some qubits of a register. -/
structure Gate (α : Type) where
  kind : GateKind
  qubits : List Nat
  parameters : Parameters α
  /-- The matrix in place of the one that follows from kind, parameters and number of qubits. -/
  ownMatrix : Option (SquareMatrix α)
  fidelity : α

namespace Gate

variable {α : Type} [Scalar α]

/-- The number of qubits a gate acts on. -/
def width (g : Gate α) : Nat := g.qubits.length

/-- The matrix of a gate. -/
def matrix (g : Gate α) : SquareMatrix α :=
  match g.ownMatrix with
  | some m => m
  | none => g.kind.unitary g.parameters g.width

/-- Whether a gate acts as the identity, since neither it nor its kind gives a matrix. -/
def isBlank (g : Gate α) : Bool := g.ownMatrix.isNone && !g.kind.hasClosedForm

/-- Two gates agree in kind, qubits, parameters, matrix and fidelity. An undefined number agrees
with nothing. -/
instance : BEq (Gate α) := ⟨fun a b =>
  decide (a.kind = b.kind) && a.qubits == b.qubits && a.parameters == b.parameters &&
    (a.isBlank && b.isBlank || a.matrix == b.matrix) && a.fidelity == b.fidelity⟩

/-- The name of the kind of a gate. -/
def name (g : Gate α) : String := g.kind.name

/-! ## Construction -/

/-- The parameter that sets the fidelity at construction; it is not kept. -/
def fidelityKey : String := "fidelity"

/-- The parameter that overrides the execution time. -/
def timeKey : String := "gate_time"

/-- Checks a qubit list against a kind: first the number of qubits, then repetitions. A kind
without a fixed number needs at least one qubit. -/
def checkQubits (kind : GateKind) (qubits : List Nat) : Except (CircuitError α) Unit :=
  let wrong := match kind.arity with
    | some expected => if qubits.length = expected then none else some expected
    | none => if qubits.isEmpty then some 1 else none
  match wrong, Qubit.firstRepeated qubits with
  | some expected, _ => .error (.wrongArity kind.name expected qubits.length)
  | none, some q => .error (.repeatedQubit q)
  | none, none => .ok ()

/-- Checks that a fidelity lies above zero and at most at one. -/
def checkFidelity (fidelity : α) : Except (CircuitError α) Unit :=
  if 0 < fidelity ∧ fidelity ≤ 1 then .ok () else .error (.badFidelity fidelity)

/-- The gate of a kind with its closed-form matrix and full fidelity. -/
def plain (kind : GateKind) (qubits : List Nat) : Gate α :=
  ⟨kind, qubits, .empty, none, 1⟩

/-- Checks that the matrix of a kind on a number of qubits can be stored. -/
def checkStorage (kind : GateKind) (qubits : Nat) : Except (CircuitError α) Unit :=
  if kind.hasStorage qubits then .ok () else .error (.noStorage qubits)

/-- A gate with parameters, of which the fidelity is taken out. -/
def make (kind : GateKind) (qubits : List Nat) (parameters : Parameters α) :
    Except (CircuitError α) (Gate α) := do
  checkQubits kind qubits
  let fidelity := (parameters.get? fidelityKey).getD 1
  checkFidelity fidelity
  checkStorage kind qubits.length
  return ⟨kind, qubits, parameters.erase fidelityKey, none, fidelity⟩

/-- A rotation of one qubit by an angle. -/
def rotation (kind : GateKind) (qubit : Nat) (angle : α) : Except (CircuitError α) (Gate α) :=
  match kind.angleKey with
  | some key => make kind [qubit] (SortedMap.empty.insert key angle)
  | none => .error (.notRotation kind.name)

/-- A gate with a matrix of its own, given by real and imaginary parts. Parts that do not fit the
qubits leave the identity. -/
def ofParts (qubits : List Nat) (re im : List α) : Except (CircuitError α) (Gate α) := do
  let g ← make .custom qubits .empty
  return { g with ownMatrix := SquareMatrix.ofParts? re im qubits.length }

/-- The gate with another fidelity. -/
def withFidelity (g : Gate α) (fidelity : α) : Except (CircuitError α) (Gate α) := do
  checkFidelity fidelity
  return { g with fidelity }

/-- The gate with its fidelity scaled by what a noise level leaves. The level is kept from zero to
just below one. -/
def withNoise (g : Gate α) (level : α) : Gate α :=
  let most : α := 1 - Scalar.unitGap
  let level := if level < 0 then 0 else if most < level then most else level
  { g with fidelity := g.fidelity * (1 - level) }

/-! ## Properties -/

/-- The rotation angle; none for a gate that does not rotate. -/
def angle (g : Gate α) : Option α := g.kind.angleKey.map fun key => (g.parameters.get? key).getD 0

/-- Whether the gate is a rotation. -/
def isRotation (g : Gate α) : Bool := g.kind.isRotation

/-- The qubits that control the gate. -/
def controlQubits (g : Gate α) : List Nat := g.qubits.take g.kind.controls

/-- The qubits that the gate changes. -/
def targetQubits (g : Gate α) : List Nat := g.qubits.drop g.kind.controls

/-- Whether two gates have a qubit in common. -/
def sharesQubit (a b : Gate α) : Bool := a.qubits.any b.qubits.contains

/-- The execution time in nanoseconds: the overriding parameter, else by kind and width. -/
def time (g : Gate α) : α :=
  (g.parameters.get? timeKey).getD <| Scalar.num <|
    if g.isRotation then 30
    else match g.width with
      | 1 => 20
      | 2 => 200
      | 3 => 1000
      | _ => 50

/-- Whether the matrix is unitary up to the tolerance. -/
def isUnitary (g : Gate α) : Bool := g.matrix.isUnitary Scalar.tolerance

/-! ## Text -/

/-- A gate by name, qubits and parameters with four places. -/
def text [NumberText α] (g : Gate α) : String :=
  let parameters := g.parameters.entries.map fun (key, x) => key ++ "=" ++ NumberText.fixed 4 x
  g.name ++ "(" ++ String.intercalate ", " (g.qubits.map Qubit.label) ++ ")" ++
    if parameters.isEmpty then ""
    else " \x7b" ++ String.intercalate ", " parameters ++ "\x7d"

end Gate

end QuantumWorkbench
