import QuantumWorkbench.Gate.Basic

/-!
# Inverse gates

The inverse of a gate, and the test whether one gate undoes another. A rotation turns back by the
opposite angle; a gate whose inverse is in the catalog becomes that kind; any other gate becomes a
gate with the conjugate transpose of its matrix.
-/

namespace QuantumWorkbench.Gate

variable {α : Type} [Scalar α]

/-- The gate that undoes this one, on the same qubits. -/
def inverse (g : Gate α) : Gate α :=
  match g.kind.angleKey with
  | some key =>
    { g with parameters := g.parameters.insert key (-(g.angle.getD 0)), ownMatrix := none }
  | none =>
    match g.kind.adjoint with
    | some kind => { g with kind, ownMatrix := none }
    | none => { g with kind := .custom, ownMatrix := some g.matrix.dagger }

/-- Whether two gates on the same qubits in the same order undo each other: equal self-inverse
kinds, rotations of one kind whose angles cancel up to the tolerance, or a phase gate and its
dagger. -/
def isInverseOf (a b : Gate α) : Bool :=
  a.qubits == b.qubits &&
    if a.kind = b.kind && a.kind.isSelfInverse then true
    else if a.isRotation && a.kind = b.kind then
      Scalar.abs (a.angle.getD 0 + b.angle.getD 0) < (Scalar.tolerance : α)
    else match a.kind, b.kind with
      | .s, .sdg | .sdg, .s | .t, .tdg | .tdg, .t => true
      | _, _ => false

end QuantumWorkbench.Gate
