import QuantumWorkbench.SingularValues.Reflection

/-!
# Bidiagonal form

Clearing columns and rows in turn leaves a matrix with entries on the diagonal and beside it only.
Turning the rows and columns by phases makes these real, so only their absolute values are kept.
-/

namespace QuantumWorkbench

/-- A real matrix with entries on its diagonal and beside it: entry `i` beside the diagonal couples
the diagonal entries `i` and `i + 1`. -/
structure Bidiagonal (α : Type) where
  diagonal : Array α
  beside : Array α

namespace Bidiagonal

variable {α : Type} [Scalar α]

/-! ## Entries -/

/-- An entry of the diagonal. -/
def main (b : Bidiagonal α) (i : Nat) : α := b.diagonal.getD i 0

/-- An entry beside the diagonal. -/
def side (b : Bidiagonal α) (i : Nat) : α := b.beside.getD i 0

/-- Sets an entry of the diagonal. -/
def setMain (b : Bidiagonal α) (i : Nat) (x : α) : Bidiagonal α :=
  { b with diagonal := b.diagonal.setIfInBounds i x }

/-- Sets an entry beside the diagonal. -/
def setSide (b : Bidiagonal α) (i : Nat) (x : α) : Bidiagonal α :=
  { b with beside := b.beside.setIfInBounds i x }

/-! ## Reduction -/

/-- The lengths that are left by clearing a number of columns and rows in turn. -/
def clear : Bool → Nat → List (Column α) → List α
  | _, 0, _ => []
  | true, n + 1, columns =>
    let (length, columns) := Reflection.clearColumn columns
    length :: clear false n columns
  | false, n + 1, columns =>
    let (length, columns) := Reflection.clearRow columns
    length :: clear true n columns

/-- Every second member of a list, from the first on. -/
def alternate : List α → List α
  | x :: _ :: xs => x :: alternate xs
  | xs => xs

/-- The bidiagonal form of a matrix with the given numbers of rows and columns. The longer side is
cleared first. -/
def ofColumns (rows cols : Nat) (columns : List (Column α)) : Bidiagonal α :=
  let lengths := clear (decide (cols ≤ rows)) (2 * min rows cols - 1) columns
  ⟨(alternate lengths).toArray, (alternate lengths.tail).toArray⟩

end Bidiagonal

end QuantumWorkbench
