import QuantumWorkbench.Json.Decode
import QuantumWorkbench.Problem.Data

/-!
# Problem data by name

Loosely typed input: a bag of named values, each a number, a text, a list or a matrix. A family
takes the values it needs; where one is missing or of another form there is no problem data. Indices
and counts are whole numbers from zero to the largest 32-bit word.
-/

namespace QuantumWorkbench

/-- A named value. -/
inductive ParameterValue (α : Type) where
  | number (x : α)
  | text (s : String)
  | list (xs : List α)
  | matrix (rows : List (List α))

/-- Named values. -/
abbrev ParameterBag (α : Type) := SortedMap String (ParameterValue α)

namespace ParameterValue

variable {α : Type}

/-! ## Views -/

/-- The value as a number. -/
def number? : ParameterValue α → Option α
  | number x => some x
  | _ => none

/-- The value as a text. -/
def text? : ParameterValue α → Option String
  | text s => some s
  | _ => none

/-- The value as a list. -/
def list? : ParameterValue α → Option (List α)
  | list xs => some xs
  | _ => none

/-- The value as a matrix; an empty list is an empty matrix. -/
def matrix? : ParameterValue α → Option (List (List α))
  | matrix rows => some rows
  | list [] => some []
  | _ => none

variable [Scalar α]

/-- The largest index or count. -/
def maxIndex : Nat := UInt32.size - 1

/-- A whole number from zero to the largest index. -/
def toIndex? (x : α) : Option Nat :=
  if 0 ≤ x ∧ x ≤ Scalar.num maxIndex then
    let n := Scalar.toNat x
    if Scalar.num n == x then some n else none
  else none

/-- A whole number of either sign, no further from zero than the largest index. -/
def toInteger? (x : α) : Option Int :=
  if x < 0 then (toIndex? (-x)).map fun n => -(n : Int) else (toIndex? x).map fun n => (n : Int)

/-- The value as an index or a count. -/
def index? (v : ParameterValue α) : Option Nat := v.number?.bind toIndex?

/-- Reads a value: a number, a text, a list of numbers or a list of such lists, the first form that
fits. -/
def ofDocument? (v : Json.Value) : Option (ParameterValue Float) :=
  (v.double?.map number).orElse fun _ =>
    (v.string?.map text).orElse fun _ =>
      ((v.listOf? Json.Value.double?).map list).orElse fun _ =>
        (v.listOf? (Json.Value.listOf? Json.Value.double?)).map matrix

end ParameterValue

/-! ## Data of a family -/

namespace ParameterBag

/-- Reads named values. -/
def ofDocument? (v : Json.Value) : Option (ParameterBag Float) :=
  v.textMap? ParameterValue.ofDocument?

variable {α : Type} (bag : ParameterBag α)

/-- The number of a name. -/
def number? (key : String) : Option α := (bag.get? key).bind ParameterValue.number?

/-- The list of a name. -/
def list? (key : String) : Option (List α) := (bag.get? key).bind ParameterValue.list?

/-- The matrix of a name. -/
def matrix? (key : String) : Option (List (List α)) := (bag.get? key).bind ParameterValue.matrix?

variable [Scalar α]

/-- The index or count of a name. -/
def index? (key : String) : Option Nat := (bag.get? key).bind ParameterValue.index?

end ParameterBag

namespace ProblemData

variable {α : Type} [Scalar α]

/-- Two indices at the front of a row. -/
def edgeOfRow? : List α → Option (Nat × Nat)
  | u :: v :: _ => do some (← ParameterValue.toIndex? u, ← ParameterValue.toIndex? v)
  | _ => none

/-- Two indices and a weight, which is one where it is left out. -/
def weightedEdgeOfRow? (row : List α) : Option (WeightedEdge α) := do
  let (u, v) ← edgeOfRow? row
  some ⟨u, v, row.getD 2 1⟩

/-- Two indices and a coefficient, and nothing else. -/
def termOfRow? : List α → Option (Nat × Nat × α)
  | [i, j, x] => do some (← ParameterValue.toIndex? i, ← ParameterValue.toIndex? j, x)
  | _ => none

/-- The data of a family among named values. -/
def ofBag? (kind : ProblemKind) (bag : ParameterBag α) : Option (ProblemData α) :=
  match kind with
  | .maxCut => do
    let edges ← (← bag.matrix? "edges").mapM weightedEdgeOfRow?
    some (.maxCut (max ((bag.index? "num_vertices").getD 0) (vertexCount (ends edges))) edges)
  | .tsp => do some (.tsp (← bag.index? "num_cities") ((bag.matrix? "distances").getD []))
  | .portfolio => do
    some (.portfolio (← bag.list? "returns") (← bag.matrix? "covariance")
      (← bag.number? "risk_aversion") (bag.number? "budget"))
  | .knapsack => do
    some (.knapsack (← bag.list? "weights") (← bag.list? "values") (← bag.number? "capacity"))
  | .vertexCover => do
    let edges ← (← bag.matrix? "edges").mapM edgeOfRow?
    some (.vertexCover (max ((bag.index? "num_vertices").getD 0) (vertexCount edges)) edges)
  | .graphColoring => do
    let edges ← (← bag.matrix? "edges").mapM edgeOfRow?
    some (.graphColoring (max ((bag.index? "num_vertices").getD 0) (vertexCount edges)) edges
      (← bag.index? "num_colors"))
  | .sat => do
    let signed ← (← bag.matrix? "clauses").mapM fun row => row.mapM ParameterValue.toInteger?
    let clauses := clausesOfSigned signed
    some (.sat (max ((bag.index? "num_variables").getD 0) (variableCount clauses)) clauses)
  | .genericQubo => do
    let terms ← (← bag.matrix? "qubo").mapM termOfRow?
    some (.genericQubo (.ofTerms ((bag.index? "num_variables").getD 0) terms))

end ProblemData

end QuantumWorkbench
