import QuantumWorkbench.Coupling.Path
import QuantumWorkbench.Gate.Basic

/-!
# Routing

A gate on two qubits that the device does not connect is preceded by exchanges that walk its first
qubit along a shortest path until it stands beside the second. The gate itself keeps its qubits.
-/

namespace QuantumWorkbench

/-- The reasons for which a circuit cannot be fitted to a device. -/
inductive RoutingError (α : Type) where
  /-- No path between two qubits. -/
  | noPath (start goal : Nat)
  /-- A fault in a gate. -/
  | circuit (error : CircuitError α)

/-- The wording of a fault. -/
def RoutingError.message {α : Type} [NumberText α] : RoutingError α → String
  | noPath start goal => s!"No path between qubits {start} and {goal} in connectivity graph"
  | circuit error => error.message

namespace CouplingGraph

variable {α : Type} [Scalar α]

/-- The pairs of qubits that follow each other in a path. -/
def steps : List Nat → List (Nat × Nat)
  | a :: b :: rest => (a, b) :: steps (b :: rest)
  | _ => []

/-- The exchanges that bring the first qubit beside the second: every step of a shortest path but
the last. -/
def swapChain (g : CouplingGraph) (start goal : Nat) : Except (RoutingError α) (List (Nat × Nat)) :=
  if g.connects start goal then .ok []
  else
    match g.shortestPath start goal with
    | some path => .ok ((steps path).take (path.length - 2))
    | none => .error (.noPath start goal)

/-- The exchange gates of a chain; the first qubit outside the register is reported. -/
def swapGates (width : Nat) (chain : List (Nat × Nat)) : Except (RoutingError α) (List (Gate α)) :=
  chain.mapM fun (a, b) =>
    match [a, b].find? fun q => width ≤ q with
    | some q => .error (.circuit (.qubitOutOfRange q width))
    | none => (Gate.make .swap [a, b] .empty).mapError .circuit

/-- The exchanges before a gate; none unless it acts on two qubits. -/
def exchangesFor (g : CouplingGraph) (width : Nat) (gate : Gate α) :
    Except (RoutingError α) (List (Gate α)) :=
  match gate.qubits with
  | [a, b] => do swapGates width (← g.swapChain a b)
  | _ => .ok []

/-- A routed list of gates: how many gates needed exchanges, and how many exchanges there are. -/
structure Routed (α : Type) where
  gates : List (Gate α)
  routed : Nat
  swaps : Nat

/-- Routes a list of gates on a register. -/
def route (g : CouplingGraph) (width : Nat) : List (Gate α) → Except (RoutingError α) (Routed α)
  | [] => .ok ⟨[], 0, 0⟩
  | gate :: gates => do
    let swaps ← g.exchangesFor width gate
    let rest ← route g width gates
    return {
      gates := swaps ++ gate :: rest.gates
      routed := rest.routed + if swaps.isEmpty then 0 else 1
      swaps := swaps.length + rest.swaps }

end CouplingGraph

end QuantumWorkbench
