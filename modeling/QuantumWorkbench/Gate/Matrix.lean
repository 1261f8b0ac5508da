import QuantumWorkbench.Amplitude
import QuantumWorkbench.Index
import QuantumWorkbench.Storage
import QuantumWorkbench.Decimal.Reading

/-!
# Square matrices of amplitudes

A matrix is stored row by row. A gate on `k` qubits carries a matrix of side `2ᵏ`; the first qubit
of the gate is the most significant bit of a row or column index.
-/

namespace QuantumWorkbench

/-- A square matrix, stored row by row. The entries fill the square, unless its side is so large
that their number is no 64-bit count. -/
structure SquareMatrix (α : Type) where
  dim : Nat
  entries : Array (Amplitude α)
  deriving BEq, DecidableEq

namespace SquareMatrix

variable {α : Type} [Scalar α]

/-- The entry in a row and a column. -/
def entry (m : SquareMatrix α) (row col : Nat) : Amplitude α := m.entries.getD (row * m.dim + col) 0

/-- The entry at the place that a row and a column have in storage, a 64-bit count; none beyond the
entries. The column may lie outside the matrix. -/
def entry? (m : SquareMatrix α) (row col : Nat) : Option (Amplitude α) :=
  m.entries[Index.wrap (row * m.dim + col)]?

/-- Whether the entries fill the square. -/
def isFull (m : SquareMatrix α) : Bool := m.entries.size == m.dim * m.dim

/-- The matrix itself, if its entries fill the square. -/
def full? (m : SquareMatrix α) : Option (SquareMatrix α) := if m.isFull then some m else none

/-- Whether a matrix of a side can be stored. -/
def hasStorage (dim : Nat) : Bool := Storage.holdsPairs (dim * dim)

/-- The matrix with a given function of row and column as its entries. -/
def ofFn (dim : Nat) (f : Nat → Nat → Amplitude α) : SquareMatrix α :=
  ⟨dim, Array.ofFn fun i : Fin (dim * dim) => f (i.val / dim) (i.val % dim)⟩

/-- The matrix of a list of rows. -/
def ofRows (rows : List (List (Amplitude α))) : SquareMatrix α :=
  ⟨rows.length, rows.flatten.toArray⟩

/-- The matrix of a list of entries, if they fill a square of the given side. The number of entries
of a square is a 64-bit count. -/
def ofEntries? (dim : Nat) (entries : List (Amplitude α)) : Option (SquareMatrix α) :=
  if entries.length = Index.wrap (dim * dim) then some ⟨dim, entries.toArray⟩ else none

/-- The identity matrix. -/
def identity (dim : Nat) : SquareMatrix α := ofFn dim fun row col => if row = col then 1 else 0

/-- The identity matrix, if it can be stored. -/
def identity? (dim : Nat) : Option (SquareMatrix α) :=
  if hasStorage dim then some (identity dim) else none

/-- The identity with two rows exchanged. -/
def exchange (dim a b : Nat) : SquareMatrix α :=
  ofFn dim fun row col =>
    let source := if row = a then b else if row = b then a else row
    if source = col then 1 else 0

/-- The side of a matrix whose entries number a square, to the nearest whole number. -/
def sideOf (count : Nat) : Nat :=
  let root := Nat.sqrt count
  if root * root = count then root else 0

/-- The number of qubits that a matrix of this side acts on: the zero bits at the end of the side,
and sixty-four where there is no side. -/
def qubits (m : SquareMatrix α) : Nat :=
  if m.dim = 0 then 64 else ((List.range 64).takeWhile fun i => !m.dim.testBit i).length

/-- The entries of a row that are not zero, with their columns. -/
def rowSupport (m : SquareMatrix α) (row : Nat) : List (Nat × Amplitude α) :=
  ((List.range m.dim).map fun col => (col, m.entry row col)).filter fun e => !(e.2 == 0)

/-- The product of two matrices of one side. A zero entry of the left factor adds nothing, whatever
it meets. -/
def mul (a b : SquareMatrix α) : SquareMatrix α :=
  let supports := (Array.range a.dim).map a.rowSupport
  ofFn a.dim fun row col =>
    (supports.getD row []).foldl (fun acc (k, z) => acc + z * b.entry k col) 0

/-- The product of two matrices, if they have one side. -/
def mul? (a b : SquareMatrix α) : Option (SquareMatrix α) :=
  if a.dim = b.dim then some (a.mul b) else none

/-- The conjugate transpose. -/
def dagger (m : SquareMatrix α) : SquareMatrix α := ofFn m.dim fun row col => (m.entry col row).conj

/-- Every entry differs by less than a tolerance. -/
def closeTo (a b : SquareMatrix α) (tolerance : α) : Bool :=
  a.dim == b.dim && (a.entries.toList.zip b.entries.toList).all fun (x, y) => x.closeTo y tolerance

/-- The product with the conjugate transpose is the identity up to a tolerance. -/
def isUnitary (m : SquareMatrix α) (tolerance : α) : Bool :=
  (m.mul m.dagger).closeTo (identity m.dim) tolerance

/-! ## Text -/

/-- A complex number with four places in both parts. -/
def entryText [NumberText α] (z : Amplitude α) : String :=
  NumberText.fixed 4 z.re ++ Decimal.withPlus (NumberText.fixed 4 z.im) ++ "i"

/-- The matrix with one row to a line. -/
def text [NumberText α] (m : SquareMatrix α) : String :=
  String.join <| (List.range m.dim).map fun row =>
    "[" ++ String.intercalate ", " ((List.range m.dim).map fun col => entryText (m.entry row col))
      ++ "]\n"

end SquareMatrix

end QuantumWorkbench
