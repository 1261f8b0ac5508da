import QuantumWorkbench.Problem.Kind
import QuantumWorkbench.Qubo.Basic

/-!
# Problem data

The input of each problem family: graphs by their edges, prices and weights by lists, clauses by
literals.
-/

namespace QuantumWorkbench

/-- An edge with a weight. -/
structure WeightedEdge (α : Type) where
  u : Nat
  v : Nat
  weight : α

/-- A variable or its negation. -/
structure Literal where
  index : Nat
  negated : Bool
  deriving DecidableEq, Repr

/-- The literal of a signed number: its absolute value counts variables from one, its sign negates.
Zero is no literal. -/
def Literal.ofSigned? (k : Int) : Option Literal :=
  if k = 0 then none else some ⟨k.natAbs - 1, k < 0⟩

/-- The data of a problem. -/
inductive ProblemData (α : Type) where
  | maxCut (vertices : Nat) (edges : List (WeightedEdge α))
  | tsp (cities : Nat) (distances : List (List α))
  | portfolio (returns : List α) (covariance : List (List α)) (riskAversion : α)
      (budget : Option α)
  | knapsack (weights values : List α) (capacity : α)
  | vertexCover (vertices : Nat) (edges : List (Nat × Nat))
  | graphColoring (vertices : Nat) (edges : List (Nat × Nat)) (colors : Nat)
  | sat (width : Nat) (clauses : List (List Literal))
  | genericQubo (qubo : Qubo α)

namespace ProblemData

/-! ## Sizes -/

/-- One more than the highest end of an edge, as far as that is an index; zero without edges. -/
def vertexCount (edges : List (Nat × Nat)) : Nat :=
  (edges.map fun e => Index.nextClamped (max e.1 e.2)).foldl max 0

/-- The ends of weighted edges. -/
def ends {α : Type} (edges : List (WeightedEdge α)) : List (Nat × Nat) :=
  edges.map fun e => (e.u, e.v)

/-- The literals of clauses given by signed numbers; zeros are dropped. -/
def clausesOfSigned (clauses : List (List Int)) : List (List Literal) :=
  clauses.map fun c => c.filterMap Literal.ofSigned?

/-- One more than the highest variable in clauses. -/
def variableCount (clauses : List (List Literal)) : Nat :=
  (clauses.flatten.map fun l => l.index + 1).foldl max 0

/-! ## Shorthands -/

variable {α : Type} [Scalar α]

/-- A cut of a graph whose edges all weigh one. -/
def cutOf (edges : List (Nat × Nat)) : ProblemData α :=
  .maxCut (vertexCount edges) (edges.map fun e => ⟨e.1, e.2, 1⟩)

/-- A cover of a graph. -/
def coverOf (edges : List (Nat × Nat)) : ProblemData α := .vertexCover (vertexCount edges) edges

/-- A colouring of a graph. -/
def coloringOf (edges : List (Nat × Nat)) (colors : Nat) : ProblemData α :=
  .graphColoring (vertexCount edges) edges colors

/-- An assignment that satisfies clauses given by signed numbers. -/
def satOf (clauses : List (List Int)) : ProblemData α :=
  let clauses := clausesOfSigned clauses
  .sat (variableCount clauses) clauses

/-- The family of the data. -/
def kind : ProblemData α → ProblemKind
  | maxCut .. => .maxCut
  | tsp .. => .tsp
  | portfolio .. => .portfolio
  | knapsack .. => .knapsack
  | vertexCover .. => .vertexCover
  | graphColoring .. => .graphColoring
  | sat .. => .sat
  | genericQubo .. => .genericQubo

/-- The limits that a solution may be checked against. -/
def constraints : ProblemData α → SortedMap String α
  | knapsack _ _ capacity => .ofList [("capacity", capacity)]
  | portfolio _ _ _ (some budget) => .ofList [("budget", budget)]
  | graphColoring _ _ colors => .ofList [("num_colors", Scalar.num colors)]
  | tsp cities _ => .ofList [("num_cities", Scalar.num cities)]
  | _ => .empty

end ProblemData

end QuantumWorkbench
