import QuantumWorkbench.Circuit.Basic
import QuantumWorkbench.Simplification.Pass

/-!
# The pipeline of passes

All passes are applied in turn, again and again, until a sweep changes nothing or the sweeps are
used up. The first fault of a pass ends the run. The result carries how often each pass was applied
and how often it changed something.
-/

namespace QuantumWorkbench.Simplification

variable {α : Type} [Scalar α]

/-- How often a pass was applied, and how often it changed the gates. -/
structure PassCount where
  pass : Pass
  applications : Nat
  modifications : Nat
  deriving DecidableEq, Repr

/-- One sweep: every pass once, in order. -/
def sweep (gates : List (Gate α)) :
    List PassCount → Except (CircuitError α) (List (Gate α) × List PassCount × Bool)
  | [] => .ok (gates, [], false)
  | count :: counts => do
    let (gates, changed) ← count.pass.apply gates
    let (gates, counts, changedLater) ← sweep gates counts
    let count := { count with
      applications := count.applications + 1
      modifications := count.modifications + if changed then 1 else 0 }
    return (gates, count :: counts, changed || changedLater)

/-- Sweeps until nothing changes, at most a number of times: the gates, the counts, and the number
of sweeps. -/
def sweeps : Nat → List (Gate α) → List PassCount →
    Except (CircuitError α) (List (Gate α) × List PassCount × Nat)
  | 0, gates, counts => .ok (gates, counts, 0)
  | n + 1, gates, counts => do
    let (gates, counts, changed) ← sweep gates counts
    if changed then
      let (gates, counts, used) ← sweeps n gates counts
      return (gates, counts, used + 1)
    else return (gates, counts, 1)

/-- The outcome of a run of the pipeline. -/
structure Outcome (α : Type) where
  circuit : Circuit α
  counts : List PassCount
  iterations : Nat
  before : Nat
  after : Nat

namespace Outcome

omit [Scalar α]

/-- Whether any pass changed the gates. -/
def modified (o : Outcome α) : Bool := o.counts.any fun c => c.modifications != 0

/-- The number of gates that a run took away. -/
def removed (o : Outcome α) : Nat := o.before - o.after

end Outcome

/-- The number of sweeps unless another is chosen. -/
def defaultSweeps : Nat := 32

/-- Simplifies a circuit. The result is marked as optimized and names every pass that changed it. -/
def run (passes : List Pass) (maxSweeps : Nat) (c : Circuit α) :
    Except (CircuitError α) (Outcome α) := do
  let (gates, counts, iterations) ← sweeps maxSweeps c.gates (passes.map fun p => ⟨p, 0, 0⟩)
  let changed := (counts.filter fun count => count.modifications != 0).map (·.pass.name)
  return {
    circuit := (c.withGates gates).markOptimized changed
    counts, iterations
    before := c.gates.length
    after := gates.length }

/-- Simplifies a circuit with the standard passes. -/
def optimize (c : Circuit α) : Except (CircuitError α) (Circuit α) :=
  (run standardPasses defaultSweeps c).map (·.circuit)

end QuantumWorkbench.Simplification
