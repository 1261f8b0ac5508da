import QuantumWorkbench.Search.Solution

/-!
# Exhaustive search

The least objective over all assignments of a small number of variables. Of several assignments with
the least objective the one of the least index is taken.
-/

namespace QuantumWorkbench.Qubo

variable {α : Type} [Scalar α]

/-- The largest number of variables that is searched. -/
def maxExhaustive : Nat := 24

/-- The objective of the assignment of an index. -/
@[specialize] def energyAt (q : Qubo α) (width index : Nat) : α :=
  q.evaluateBy width fun k => (index >>> k) % 2

theorem energyAt_eq_evaluate (q : Qubo α) (width index : Nat) :
    q.energyAt width index = q.evaluate (Solution.bitsOfIndex index width) := by
  rw [energyAt, evaluate, List.size_toArray, Solution.length_bitsOfIndex, evaluateBy_eq_sum,
    evaluateBy_eq_sum]
  refine congrArg Scalar.sum (List.map_congr_left fun term h => ?_)
  obtain ⟨h₁, h₂⟩ : term.1.1 < width ∧ term.1.2 < width := by
    simpa [isWithin] using (List.mem_filter.1 h).2
  simp [termValue, Solution.getElem?_bitsOfIndex, h₁, h₂]

/-- Keeps the better of a best index so far and another index: a lower objective wins, and the best
so far stays where they are equal. -/
@[specialize] def better (q : Qubo α) (width : Nat) (best : Nat × α) (index : Nat) : Nat × α :=
  let energy := q.energyAt width index
  if Scalar.before energy best.2 then (index, energy) else best

/-- The best assignment of a quadratic objective. -/
@[specialize] def minimum (q : Qubo α) : Except (TaskError α) (Solution α) :=
  let n := q.width
  if n = 0 ∨ maxExhaustive < n then .error (.searchSize maxExhaustive n)
  else
    let best := (Nat.pow 2 n - 1).fold (fun index _ best => q.better n best (index + 1))
      (0, q.energyAt n 0)
    .ok ⟨Solution.bitsOfIndex best.1 n, best.2⟩

end QuantumWorkbench.Qubo
