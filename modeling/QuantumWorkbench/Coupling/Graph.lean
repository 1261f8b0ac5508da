import QuantumWorkbench.Index
import QuantumWorkbench.SortedMap.Group

/-!
# Coupling graphs

Which pairs of physical qubits a device connects. Every qubit has the ordered set of its neighbours;
adding an edge enters it at both ends. A graph that was read from a text may hold edges in one
direction only.
-/

namespace QuantumWorkbench

/-- The neighbours of every qubit, and the number of qubits. -/
structure CouplingGraph where
  qubits : Nat
  adjacency : SortedMap Nat (SortedSet Nat)
  deriving DecidableEq

namespace CouplingGraph

/-! ## Edges -/

/-- The graph without edges. -/
def edgeless (qubits : Nat) : CouplingGraph := ⟨qubits, .empty⟩

/-- The neighbours of a qubit in increasing order. -/
def neighbors (g : CouplingGraph) (q : Nat) : List Nat :=
  match g.adjacency.get? q with
  | some set => set.keys
  | none => []

/-- The number of neighbours of a qubit. -/
def degree (g : CouplingGraph) (q : Nat) : Nat := (g.neighbors q).length

/-- Whether the second qubit is a neighbour of the first. -/
def connects (g : CouplingGraph) (a b : Nat) : Bool := (g.neighbors a).contains b

/-- Enters a qubit among the neighbours of another. -/
def link (adjacency : SortedMap Nat (SortedSet Nat)) (a b : Nat) : SortedMap Nat (SortedSet Nat) :=
  adjacency.update a fun old => (old.getD .empty).insert b ()

/-- Adds an edge between two different qubits; the number of qubits grows to cover both ends, as far
as it is an index. -/
def addEdge (g : CouplingGraph) (a b : Nat) : CouplingGraph :=
  if a = b then g
  else ⟨max (max g.qubits (Index.next a)) (Index.next b), link (link g.adjacency a b) b a⟩

/-- Enters a list of qubits among the neighbours of a qubit. -/
def linkAll (old : Option (SortedSet Nat)) (qs : List Nat) : SortedSet Nat :=
  (old.getD .empty).updateAll (fun _ _ => ()) (qs.map fun q => (q, ()))

/-- Both directions of each edge. -/
def directions (edges : List (Nat × Nat)) : List (Nat × Nat) :=
  edges.flatMap fun e => [(e.1, e.2), (e.2, e.1)]

/-- Adds the edges of a list, all neighbours of a qubit at once. -/
def addEdges (g : CouplingGraph) (edges : List (Nat × Nat)) : CouplingGraph :=
  let proper := edges.filter fun e => e.1 != e.2
  ⟨proper.foldl (fun n e => max (max n (Index.next e.1)) (Index.next e.2)) g.qubits,
    g.adjacency.updateAll linkAll (SortedMap.group (directions proper)).entries⟩

/-- Each connected pair once, the lower qubit first. -/
def edges (g : CouplingGraph) : List (Nat × Nat) :=
  g.adjacency.entries.flatMap fun (a, set) => (set.keys.filter fun b => a < b).map fun b => (a, b)

/-! ## Topologies -/

/-- The graph of a list of edges. -/
def ofEdges (qubits : Nat) (edges : List (Nat × Nat)) : CouplingGraph :=
  (edgeless qubits).addEdges edges

/-- Every pair is connected. -/
def complete (qubits : Nat) : CouplingGraph :=
  ofEdges qubits <| (List.range qubits).flatMap fun a =>
    (List.range' (a + 1) (qubits - (a + 1))).map fun b => (a, b)

/-- Each qubit is connected to the next. -/
def chain (qubits : Nat) : CouplingGraph :=
  ofEdges qubits ((List.range (qubits - 1)).map fun q => (q, q + 1))

/-- A chain whose ends are connected too, where it has more than two qubits. -/
def ring (qubits : Nat) : CouplingGraph :=
  if 2 < qubits then (chain qubits).addEdge (qubits - 1) 0 else chain qubits

/-- The edges of a lattice to the right and below, row by row. Numbers beyond the range of an index
wrap around. -/
def gridEdges (rows cols : Nat) : List (Nat × Nat) :=
  if cols = 0 then []
  else
    (List.range rows).flatMap fun row => (List.range cols).flatMap fun col =>
      let q := Index.wrap (row * cols + col)
      (if col + 1 < cols then [(q, Index.next q)] else []) ++
        if row + 1 < rows then [(q, Index.wrap (q + cols))] else []

/-- A lattice of rows and columns, numbered row by row. -/
def grid (rows cols : Nat) : CouplingGraph :=
  ofEdges (Index.wrap (rows * cols)) (gridEdges rows cols)

/-! ## One edge after another -/

theorem linkAll_cons (old : Option (SortedSet Nat)) (q : Nat) (qs : List Nat) :
    linkAll old (q :: qs) =
      qs.foldl (fun set q => set.insert q ()) ((old.getD .empty).insert q ()) := by
  rw [linkAll, SortedMap.updateAll_eq_foldl, List.foldl_map]
  rfl

/-- Adding a list of edges is adding one edge after another. -/
theorem addEdges_eq_foldl (g : CouplingGraph) (edges : List (Nat × Nat)) :
    g.addEdges edges = edges.foldl (fun g e => g.addEdge e.1 e.2) g := by
  rw [addEdges, SortedMap.updateAll_group g.adjacency
    (fun old q => (old.getD .empty).insert q ()) linkAll linkAll_cons,
    SortedMap.updateAll_eq_foldl]
  induction edges generalizing g with
  | nil => rfl
  | cons e edges ih =>
    rw [List.foldl_cons, ← ih, addEdge]
    by_cases h : e.1 = e.2
    · simp [h]
    · simp [h, directions, link]

end CouplingGraph

end QuantumWorkbench
