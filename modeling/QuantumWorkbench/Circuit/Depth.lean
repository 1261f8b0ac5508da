import QuantumWorkbench.Circuit.Basic

/-!
# Depth and counts

The depth of a circuit is found by levels: a gate stands one level above the highest gate before it
on any of its qubits. Beside it stand the counts by name and by width.
-/

namespace QuantumWorkbench

namespace Gate

/-- The level of each qubit: the level of the last gate on it. -/
abbrev Levels := Array Nat

variable {α : Type}

/-- The level of a gate after the gates that gave the levels. -/
def level (levels : Levels) (g : Gate α) : Nat :=
  (g.qubits.map fun q => levels.getD q 0).foldl max 0 + 1

/-- The levels after a gate. -/
def raise (levels : Levels) (g : Gate α) : Levels :=
  let level := level levels g
  g.qubits.foldl (fun acc q => acc.setIfInBounds q level) levels

/-- The highest level among gates, from given levels on. -/
def depthFrom : Levels → List (Gate α) → Nat
  | _, [] => 0
  | levels, g :: gs => max (level levels g) (depthFrom (raise levels g) gs)

end Gate

namespace Circuit

variable {α : Type}

/-- Whether every gate lies in the register of the circuit. -/
def inRegister (c : Circuit α) : Bool := c.gates.all fun g => g.qubits.all fun q => q < c.width

/-- The number of levels of a circuit whose gates lie in its register. -/
def depth (c : Circuit α) : Nat := Gate.depthFrom (Array.replicate c.width 0) c.gates

/-- The number of levels of a circuit; none where a gate has no level, since it lies outside the
register. -/
def depth? (c : Circuit α) : Option Nat := if c.inRegister then some c.depth else none

/-- The number of gates of each name. -/
def gateCounts (c : Circuit α) : SortedMap String Nat :=
  c.gates.foldl (fun m g => m.update g.kind.name fun old => old.getD 0 + 1) .empty

/-- The number of gates that satisfy a test. -/
def countGates (c : Circuit α) (p : Gate α → Bool) : Nat := (c.gates.filter p).length

/-- The figures that sum a circuit up. -/
structure Metrics (α : Type) where
  total : Nat
  single : Nat
  double : Nat
  multiple : Nat
  controlledNots : Nat
  depth : Nat
  measurements : Nat
  fidelity : α
  optimized : Bool

/-- The figures of a circuit, if it has a depth. -/
def metrics? (c : Circuit α) : Option (Metrics α) :=
  c.depth?.map fun depth =>
    { total := c.gates.length
      single := c.countGates fun g => g.qubits.length = 1
      double := c.countGates fun g => g.qubits.length = 2
      multiple := c.countGates fun g => 2 < g.qubits.length
      controlledNots := c.countGates fun g => g.kind = .cnot
      depth := depth
      measurements := c.measurements.length
      fidelity := c.fidelity
      optimized := c.optimized }

end Circuit

end QuantumWorkbench
