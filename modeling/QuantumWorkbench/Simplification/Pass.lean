import QuantumWorkbench.Simplification.Cancellation
import QuantumWorkbench.Simplification.DeadGate
import QuantumWorkbench.Simplification.Fusion
import QuantumWorkbench.Simplification.Reordering

/-!
# Passes

A pass simplifies a list of gates and tells whether it changed anything. Passes see gates only:
registers, measurements and placements are out of their reach.
-/

namespace QuantumWorkbench.Simplification

/-- The passes over a list of gates. -/
inductive Pass where
  | dropDead
  | fuse
  | cancelInverses (lookahead : Nat)
  | reorder
  deriving DecidableEq, Repr

namespace Pass

/-- The name of a pass. -/
def name : Pass → String
  | dropDead => "dead_gate_elimination"
  | fuse => "rotation_fusion"
  | cancelInverses _ => "inverse_cancellation"
  | reorder => "commutation_reordering"

/-- What a pass does, in one line. -/
def about : Pass → String
  | dropDead => "Removes identity gates and zero-angle rotations"
  | fuse => "Merges runs of same-axis rotations on a qubit"
  | cancelInverses _ => "Removes gate pairs that multiply to the identity"
  | reorder => "Moves lower-arity gates ahead of commuting wider gates"

/-- The pass of a name, with the look-ahead that it takes where it needs one. -/
def ofName? (lookahead : Nat) (text : String) : Option Pass :=
  [dropDead, fuse, cancelInverses lookahead, reorder].find? fun p => p.name = text

variable {α : Type} [Scalar α]

/-- Applies a pass: the new gates, and whether they differ from the old. -/
def apply (pass : Pass) (gates : List (Gate α)) :
    Except (CircuitError α) (List (Gate α) × Bool) :=
  match pass with
  | dropDead =>
    let kept := Simplification.dropDead gates
    .ok (kept, kept.length != gates.length)
  | fuse => do
    let fused ← Simplification.fuse gates
    return (fused, fused != gates)
  | cancelInverses lookahead =>
    let kept := Simplification.cancelInverses lookahead gates
    .ok (kept, kept.length != gates.length)
  | reorder =>
    let (moved, swaps) := Simplification.reorder gates
    .ok (moved, swaps != 0)

end Pass

/-- The four passes in their usual order. -/
def standardPasses : List Pass :=
  [.dropDead, .fuse, .cancelInverses defaultLookahead, .reorder]

end QuantumWorkbench.Simplification
