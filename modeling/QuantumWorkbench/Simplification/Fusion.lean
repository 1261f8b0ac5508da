import QuantumWorkbench.Gate.Basic

/-!
# Fusing rotations

Rotations of one qubit about one axis that follow each other become one rotation by the sum of their
angles. One rotation per qubit is held back. A rotation about the same axis is merged into it, one
about another axis puts it out, and any gate that does not rotate puts out all that are held back,
in the order of their qubits, before itself.
-/

namespace QuantumWorkbench.Simplification

variable {α : Type} [Scalar α]

/-- The parameters of two rotations added up by name. The execution time of the first is kept. -/
def addParameters (first second : Parameters α) : Parameters α :=
  second.entries.foldl (fun acc (key, x) =>
    acc.update key fun old =>
      if key = Gate.timeKey then old.getD x else old.getD 0 + x) first

/-- Two rotations about one axis as one. The fidelities multiply. -/
def mergeRotations (first second : Gate α) : Except (CircuitError α) (Gate α) := do
  let merged ← Gate.make first.kind (first.qubits.take 1)
    (addParameters first.parameters second.parameters)
  merged.withFidelity (first.fidelity * second.fidelity)

/-- The rotations held back, by qubit. -/
abbrev Pending (α : Type) := SortedMap Nat (Gate α)

/-- Fuses rotations in a list of gates, on top of those held back. -/
def fuseFrom (pending : Pending α) : List (Gate α) → Except (CircuitError α) (List (Gate α))
  | [] => .ok pending.values
  | g :: gs =>
    if g.isRotation then
      let qubit := g.qubits.headD 0
      match pending.get? qubit with
      | some held =>
        if held.kind = g.kind then do
          let merged ← mergeRotations held g
          fuseFrom (pending.insert qubit merged) gs
        else do
          let rest ← fuseFrom (pending.insert qubit g) gs
          return held :: rest
      | none => fuseFrom (pending.insert qubit g) gs
    else do
      let rest ← fuseFrom .empty gs
      return pending.values ++ g :: rest

/-- Fuses rotations in a list of gates. -/
def fuse (gates : List (Gate α)) : Except (CircuitError α) (List (Gate α)) := fuseFrom .empty gates

end QuantumWorkbench.Simplification
