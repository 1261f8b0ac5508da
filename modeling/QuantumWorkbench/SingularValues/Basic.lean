import QuantumWorkbench.SingularValues.Iteration

/-!
# Singular values of a matrix

The entries are scaled to size one, the matrix is brought to bidiagonal form, and that is iterated
until it is diagonal.
-/

namespace QuantumWorkbench.Column

variable {α : Type} [Scalar α]

/-- The largest extent of an entry; undefined entries do not count. -/
def maxExtent (columns : List (Column α)) : α :=
  columns.foldl (fun acc v => v.foldl (fun acc z => if acc < z.extent then z.extent else acc) acc) 0

/-- Values that can be ordered: a single one, or several that are all defined. -/
def ordered? (values : List α) : Option (List α) :=
  if values.length ≤ 1 || values.all (fun x => x == x) then some values else none

/-- The singular values of the matrix of the given columns, in no particular order; none for an
empty matrix, and none where they cannot be ordered. -/
def singularValues? (rows cols : Nat) (columns : List (Column α)) : Option (List α) :=
  if rows = 0 || cols = 0 then none
  else
    let size := maxExtent columns
    let scaled := if size == 0 then columns else columns.map fun v => scaleDown v size
    ordered? ((Bidiagonal.ofColumns rows cols scaled).singularValues.map fun x => x * size)

end QuantumWorkbench.Column
