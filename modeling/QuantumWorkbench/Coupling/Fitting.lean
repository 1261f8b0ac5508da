import QuantumWorkbench.Circuit.Basic
import QuantumWorkbench.Coupling.Routing
import QuantumWorkbench.Coupling.Target

/-!
# Fitting circuits to devices

First the gates are routed along the coupling graph, then those that are not native are written out.
Registers, measurements and the placement of the qubits stay.
-/

namespace QuantumWorkbench.Device

variable {α : Type} [Scalar α]

/-- A circuit fitted to a device, with the figures of the fitting. -/
structure Fitted (α : Type) where
  circuit : Circuit α
  before : Nat
  after : Nat
  routed : Nat
  swaps : Nat
  expanded : Nat

/-- The gates of a list routed for a device; a device without a graph takes them as they are. -/
def routeFor (d : Device) (width : Nat) (gates : List (Gate α)) :
    Except (RoutingError α) (CouplingGraph.Routed α) :=
  match d.coupling with
  | some g => g.route width gates
  | none => .ok ⟨gates, 0, 0⟩

/-- Fits a circuit to a device. -/
def fit (d : Device) (c : Circuit α) : Except (RoutingError α) (Fitted α) := do
  let routed ← d.routeFor c.width c.gates
  let gates := d.expandAll routed.gates
  return {
    circuit := c.withGates gates
    before := c.gates.length
    after := gates.length
    routed := routed.routed
    swaps := routed.swaps
    expanded := (routed.gates.filter fun g => d.needsExpansion g).length }

end QuantumWorkbench.Device
