import QuantumWorkbench.Gate.Basic

/-!
# Commuting gates

A cautious test: two gates commute where they share no qubit, where they are of one kind on the same
qubits (with equal matrices, where the kind does not fix them), or where they turn one qubit about
the same axis. Other pairs are taken not to commute.
-/

namespace QuantumWorkbench.Gate

variable {α : Type} [Scalar α]

/-- Whether both gates turn about the same axis. -/
def sameAxis (a b : Gate α) : Bool :=
  match a.kind.axis, b.kind.axis with
  | some p, some q => p = q
  | _, _ => false

/-- The cautious commutation test. -/
def commutes (a b : Gate α) : Bool :=
  if !a.sharesQubit b then true
  else if a.kind = b.kind && a.qubits == b.qubits then
    a.kind.hasClosedForm || a.isBlank && b.isBlank ||
      a.matrix.closeTo b.matrix Scalar.tolerance
  else a.width == 1 && a.qubits == b.qubits && a.sameAxis b

end QuantumWorkbench.Gate
