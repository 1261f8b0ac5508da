import QuantumWorkbench.Text.Blank

/-!
# Gate kinds

The gates that the workbench knows by name, with the facts that hang on the kind alone: the number
of qubits, the key of the rotation angle, which qubits are controls, the axis a one-qubit gate turns
about, and the kind of the inverse. A name outside the catalog stands for a gate of any width that
acts as the identity.
-/

namespace QuantumWorkbench

/-- The kind of a gate. -/
inductive GateKind where
  | identity | h | x | y | z | s | sdg | t | tdg
  | rx | ry | rz
  | cnot | cz | swap | iswap
  | toffoli | fredkin
  /-- A gate with a matrix of its own. -/
  | custom
  /-- A name that the catalog does not hold. -/
  | named (name : String)
  deriving DecidableEq, Repr

/-- The axis that a one-qubit gate turns about. -/
inductive Axis where
  | x | y | z
  deriving DecidableEq, Repr

namespace GateKind

/-! ## Names -/

/-- The catalog name of a kind, or the name it was given. -/
def name : GateKind → String
  | identity => "identity"
  | h => "h"
  | x => "x"
  | y => "y"
  | z => "z"
  | s => "s"
  | sdg => "sdg"
  | t => "t"
  | tdg => "tdg"
  | rx => "rx"
  | ry => "ry"
  | rz => "rz"
  | cnot => "cnot"
  | cz => "cz"
  | swap => "swap"
  | iswap => "iswap"
  | toffoli => "toffoli"
  | fredkin => "fredkin"
  | custom => "custom"
  | named name => name

/-- The kinds of the catalog. -/
def catalog : List GateKind :=
  [identity, h, x, y, z, s, sdg, t, tdg, rx, ry, rz, cnot, cz, swap, iswap, toffoli, fredkin,
    custom]

/-- Further names that stand for a kind of the catalog. -/
def aliases : List (String × GateKind) :=
  [("i", identity), ("id", identity), ("cx", cnot), ("ccx", toffoli), ("ccnot", toffoli),
    ("cswap", fredkin)]

/-- The kind of a name: white space around it and the case of its letters do not matter. -/
def ofName (text : String) : GateKind :=
  let key := Text.lower (Text.trim text)
  ((catalog.map fun k => (k.name, k)) ++ aliases).lookup key |>.getD (named key)

/-! ## Qubits -/

/-- The number of qubits a gate of this kind acts on, where it is fixed. -/
def arity : GateKind → Option Nat
  | identity | h | x | y | z | s | sdg | t | tdg | rx | ry | rz => some 1
  | cnot | cz | swap | iswap => some 2
  | toffoli | fredkin => some 3
  | custom | named _ => none

/-- How many of the first qubits are controls. -/
def controls : GateKind → Nat
  | cnot | cz | fredkin => 1
  | toffoli => 2
  | _ => 0

/-- Whether a gate of this kind has controls. -/
def isControlled (k : GateKind) : Bool := k.controls != 0

/-! ## Rotations -/

/-- The parameter that holds the angle of a rotation. -/
def angleKey : GateKind → Option String
  | rx => some "theta"
  | ry => some "phi"
  | rz => some "lambda"
  | _ => none

/-- Whether the kind is a rotation by an angle. -/
def isRotation (k : GateKind) : Bool := k.angleKey.isSome

/-- The axis a one-qubit gate turns about. -/
def axis : GateKind → Option Axis
  | x | rx => some .x
  | y | ry => some .y
  | z | s | sdg | t | tdg | rz => some .z
  | _ => none

/-- Whether the kind and the angle determine how a gate acts. -/
def hasClosedForm : GateKind → Bool
  | custom | named _ => false
  | _ => true

/-! ## Inverses -/

/-- Whether a gate of this kind undoes itself. -/
def isSelfInverse : GateKind → Bool
  | identity | h | x | y | z | cnot | cz | swap | toffoli | fredkin => true
  | _ => false

/-- The kind of the inverse, where it is in the catalog. -/
def adjoint : GateKind → Option GateKind
  | s => some sdg
  | sdg => some s
  | t => some tdg
  | tdg => some t
  | k => if k.isSelfInverse || k.isRotation then some k else none

theorem adjoint_adjoint {k k' : GateKind} (h : k.adjoint = some k') : k'.adjoint = some k := by
  cases k <;> simp_all [adjoint, isSelfInverse, isRotation, angleKey] <;> subst h <;> rfl

end GateKind

end QuantumWorkbench
