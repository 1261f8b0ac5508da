import QuantumWorkbench.Problem.Data
import QuantumWorkbench.Qubo.Ising

/-!
# Encodings

Each problem family as a quadratic objective over bits, with the constants that were used and a
sentence on how to read an assignment. The cut problem also gives a spin model. Clauses are scored
literal by literal, and a tour only reserves its variables.
-/

namespace QuantumWorkbench

/-- An encoded problem. -/
structure Encoding (α : Type) where
  qubo : Qubo α
  spins : Option (SpinModel α)
  metadata : SortedMap String α
  interpretation : String

namespace Encoding

variable {α : Type} [Scalar α]

/-! ## Constants -/

/-- The penalty recorded for tours. -/
def tourPenalty : α := Scalar.num 1000

/-- The coupling of a cut edge of weight one. -/
def cutCoupling : α := -(1 / Scalar.num 4)

/-- The widest register that is encoded. -/
def maxVariables : Nat := 1 <<< 24

/-- The name under which a penalty is recorded. -/
def penaltyKey : String := "penalty_weight"

/-- The encoding of an objective, with its number of variables recorded. -/
def ofQubo (qubo : Qubo α) (interpretation : String) : Encoding α where
  qubo
  spins := none
  metadata := .ofList [("num_variables", Scalar.num qubo.width)]
  interpretation

/-- The encoding with one more constant recorded. -/
def record (e : Encoding α) (key : String) (x : α) : Encoding α :=
  { e with metadata := e.metadata.insert key x }

/-- The recorded penalty. -/
def penalty? (e : Encoding α) : Option α := e.metadata.get? penaltyKey

/-! ## Families -/

/-- The terms of a weighted edge: its weight on both ends, and twice its weight off the pair. -/
def cutTerms (e : WeightedEdge α) : List (Nat × Nat × α) :=
  [(e.u, e.u, e.weight), (e.v, e.v, e.weight), (e.u, e.v, -Scalar.two * e.weight)]

/-- Largest cut: a set bit puts a vertex on the far side. -/
def maxCut (vertices : Nat) (edges : List (WeightedEdge α)) : Encoding α :=
  let qubo := Qubo.ofTerms vertices (edges.flatMap cutTerms)
  let model := (SpinModel.blank vertices).addCouplings <| edges.map fun e =>
    (Qubo.ordered e.u e.v, cutCoupling * e.weight)
  { ofQubo qubo "x_i = 1 places vertex i in the second partition" with
    spins := some (model.resize qubo.width) }

/-- Shortest tour: a variable for each position and city. -/
def tsp (cities : Nat) : Encoding α :=
  let e := ofQubo (.blank (cities * cities)) "x[p * n + c] = 1 visits city c at tour position p"
  (e.record penaltyKey tourPenalty).record "num_cities" (Scalar.num cities)

/-- The entries of a matrix with their row and column, as far as a number of rows and columns. -/
def matrixTerms (n : Nat) (rows : List (List α)) : List (Nat × Nat × α) :=
  (rows.take n).zipIdx.flatMap fun (row, i) => (row.take n).zipIdx.map fun (x, j) => (i, j, x)

/-- Portfolio choice: returns count for an asset, risk-weighted covariances against a pair. -/
def portfolio (returns : List α) (covariance : List (List α)) (riskAversion : α)
    (budget : Option α) : Encoding α :=
  let n := returns.length
  let gains := returns.zipIdx.map fun (r, i) => (i, i, -r)
  let risks := (matrixTerms n covariance).map fun (i, j, x) => (i, j, riskAversion * x)
  let e := ofQubo ((Qubo.ofTerms n gains).addTerms risks) "x_i = 1 holds asset i"
  let e := e.record "risk_aversion" riskAversion
  match budget with
  | some budget => e.record "budget" budget
  | none => e

/-- Knapsack: values count for an item, and the squared distance of the load from the capacity
counts against the choice, weighted by twice the sum of the values. The constant part of the square
is recorded. -/
def knapsack (weights values : List α) (capacity : α) : Encoding α :=
  let n := weights.length
  -- the square of the load less the capacity, without its constant part
  let penalty := Scalar.two * Scalar.sum values
  let gains := (values.take n).zipIdx.map fun (v, i) => (i, i, -v)
  let squares := weights.zipIdx.flatMap fun (wi, i) =>
    weights.zipIdx.map fun (wj, j) => (i, j, penalty * wi * wj)
  let linear := weights.zipIdx.map fun (w, i) => (i, i, -Scalar.two * penalty * capacity * w)
  let qubo := ((Qubo.ofTerms n gains).addTerms squares).addTerms linear
  let e := ofQubo qubo "x_i = 1 packs item i"
  let e := e.record penaltyKey penalty
  (e.record "offset" (penalty * capacity * capacity)).record "capacity" capacity

/-- Smallest cover: every chosen vertex counts one, and an edge counts the penalty, ten for each
vertex, where exactly one end is chosen. -/
def vertexCover (vertices : Nat) (edges : List (Nat × Nat)) : Encoding α :=
  let penalty : α := Scalar.num 10 * Scalar.num vertices
  let covered := edges.flatMap fun (i, j) =>
    [(i, i, penalty), (j, j, penalty), (i, j, -Scalar.two * penalty)]
  let qubo := (Qubo.uniform vertices 1).addTerms covered
  let e := ofQubo qubo "x_i = 1 puts vertex i in the cover"
  e.record penaltyKey penalty

/-- The variable of a vertex and a colour. -/
def colorVariable (colors vertex color : Nat) : Nat := vertex * colors + color

/-- The terms of one vertex: a reward for each colour, and a penalty for each pair of colours. -/
def vertexTerms (colors : Nat) (penalty : α) (vertex : Nat) : List (Nat × Nat × α) :=
  let var := colorVariable colors vertex
  (List.range colors).flatMap fun c =>
    (var c, var c, -penalty) ::
      (List.range' (c + 1) (colors - (c + 1))).map fun c' => (var c, var c', penalty)

/-- The terms of one edge: a penalty for each colour on both ends. -/
def edgeTerms (colors : Nat) (penalty : α) (edge : Nat × Nat) : List (Nat × Nat × α) :=
  (List.range colors).map fun c =>
    (colorVariable colors edge.1 c, colorVariable colors edge.2 c, penalty)

/-- Colouring: a variable for each vertex and colour of a register of the given width. Without
colours no vertex has terms, however many vertices there are. -/
def graphColoring (width vertices : Nat) (edges : List (Nat × Nat)) (colors : Nat) : Encoding α :=
  let penalty : α := Scalar.num 10 * Scalar.num vertices * Scalar.num colors
  let colored := if colors = 0 then 0 else vertices
  let rewards := (List.range colored).flatMap (vertexTerms colors penalty)
  let clashes := edges.flatMap (edgeTerms colors penalty)
  let e := ofQubo ((Qubo.ofTerms width rewards).addTerms clashes)
    "x[v * k + c] = 1 gives vertex v colour c"
  (e.record penaltyKey penalty).record "num_colors" (Scalar.num colors)

/-- Satisfiability: a literal lowers its variable by the penalty, ten for each clause, and a negated
literal raises it. -/
def sat (width : Nat) (clauses : List (List Literal)) : Encoding α :=
  let penalty : α := Scalar.num 10 * Scalar.num clauses.length
  let terms := clauses.flatten.map fun l =>
    (l.index, l.index, if l.negated then penalty else -penalty)
  let e := ofQubo (Qubo.ofTerms width terms) "x_i = 1 sets variable i true"
  e.record penaltyKey penalty

/-! ## Register widths -/

/-- A number of vertices, raised to cover the ends of all edges, if that is an index. -/
def coveringWidth? (vertices : Nat) (edges : List (Nat × Nat)) : Option Nat :=
  edges.foldlM (fun width e => (Index.next? (max e.1 e.2)).map (max width)) vertices

/-- The number of variables that data needs, if that is an index. -/
def registerWidth? : ProblemData α → Option Nat
  | .maxCut vertices edges => coveringWidth? vertices (ProblemData.ends edges)
  | .vertexCover vertices edges => coveringWidth? vertices edges
  | .graphColoring vertices edges colors =>
    (coveringWidth? vertices edges).bind fun width => Index.mul? width colors
  | .tsp cities _ => Index.mul? cities cities
  | .portfolio returns .. => some returns.length
  | .knapsack weights .. => some weights.length
  | .sat width clauses =>
    clauses.flatten.foldlM (fun width l => (Index.next? l.index).map (max width)) width
  | .genericQubo qubo =>
    qubo.terms.keys.foldlM (fun width k => (Index.next? k.2).map (max width)) qubo.declared

/-- Encodes data on a register of the given width. -/
def ofData (width : Nat) : ProblemData α → Encoding α
  | .maxCut vertices edges => maxCut vertices edges
  | .tsp cities _ => tsp cities
  | .portfolio returns covariance riskAversion budget =>
    portfolio returns covariance riskAversion budget
  | .knapsack weights values capacity => knapsack weights values capacity
  | .vertexCover vertices edges => vertexCover vertices edges
  | .graphColoring vertices edges colors => graphColoring width vertices edges colors
  | .sat count clauses => sat count clauses
  | .genericQubo qubo => ofQubo qubo "caller-defined binary variables"

/-- Encodes data whose register is not too wide. -/
def ofData? (data : ProblemData α) : Option (Encoding α) :=
  (registerWidth? data).bind fun width =>
    if maxVariables < width then none else some (ofData width data)

end Encoding

end QuantumWorkbench
