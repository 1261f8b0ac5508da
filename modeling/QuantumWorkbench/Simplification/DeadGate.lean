import QuantumWorkbench.Gate.Basic

/-!
# Dead gates

Identity gates, and rotations by an angle that counts as zero, are dropped.
-/

namespace QuantumWorkbench.Simplification

variable {α : Type} [Scalar α]

/-- Whether a gate does nothing: an identity, or a rotation by less than the tolerance. -/
def isDead (g : Gate α) : Bool :=
  g.kind = .identity ||
    match g.angle with
    | some angle => Scalar.abs angle < (Scalar.tolerance : α)
    | none => false

/-- The gates that do something. -/
def dropDead (gates : List (Gate α)) : List (Gate α) := gates.filter fun g => !isDead g

end QuantumWorkbench.Simplification
