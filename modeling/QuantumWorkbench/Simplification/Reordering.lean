import QuantumWorkbench.Gate.Commutation

/-!
# Moving narrow gates forward

One walk over neighbouring gates: a gate that acts on more qubits than the next one, and commutes
with it, is carried past it.
-/

namespace QuantumWorkbench.Simplification

variable {α : Type} [Scalar α]

/-- Walks a gate through the gates after it, and goes on with the gate that it stops at. The second
part counts the exchanges. -/
def carry (g : Gate α) : List (Gate α) → List (Gate α) × Nat
  | [] => ([g], 0)
  | h :: hs =>
    if h.width < g.width && g.commutes h then
      let (rest, swaps) := carry g hs
      (h :: rest, swaps + 1)
    else
      let (rest, swaps) := carry h hs
      (g :: rest, swaps)

/-- One walk over a list of gates, with the number of exchanges. -/
def reorder : List (Gate α) → List (Gate α) × Nat
  | [] => ([], 0)
  | g :: gs => carry g gs

end QuantumWorkbench.Simplification
