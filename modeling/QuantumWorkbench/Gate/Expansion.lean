import QuantumWorkbench.Gate.Basic

/-!
# Gate expansions

Gates on two and three qubits written out in one-qubit gates and controlled negations.
-/

namespace QuantumWorkbench.Gate

variable {α : Type} [Scalar α]

/-- The doubly controlled negation of `c` by `a` and `b` in fifteen gates. -/
def toffoliNetwork (a b c : Nat) : List (Gate α) :=
  [plain .h [c], plain .cnot [b, c], plain .tdg [c], plain .cnot [a, c], plain .t [c],
    plain .cnot [b, c], plain .tdg [c], plain .cnot [a, c], plain .t [b], plain .t [c],
    plain .h [c], plain .cnot [a, b], plain .t [a], plain .tdg [b], plain .cnot [a, b]]

/-- The gates that a gate is written out in: itself where no expansion is known. -/
def expansion (g : Gate α) : List (Gate α) :=
  match g.kind, g.qubits with
  | .toffoli, [a, b, c] => toffoliNetwork a b c
  | .cz, [a, b] => [plain .h [b], plain .cnot [a, b], plain .h [b]]
  | .swap, [a, b] => [plain .cnot [a, b], plain .cnot [b, a], plain .cnot [a, b]]
  | .fredkin, [a, b, c] => plain .cnot [c, b] :: toffoliNetwork a b c ++ [plain .cnot [c, b]]
  | _, _ => [g]

end QuantumWorkbench.Gate
