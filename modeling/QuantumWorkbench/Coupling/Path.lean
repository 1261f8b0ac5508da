import QuantumWorkbench.Coupling.Graph
import Std.Data.HashMap
import Std.Data.HashSet

/-!
# Shortest paths

Breadth-first search over a coupling graph. Neighbours are tried in increasing order, so of several
shortest paths the same one is always found. The search is stated on lists, and carried out with a
queue, a table of the neighbours and a hashed set of the qubits seen.
-/

namespace QuantumWorkbench.CouplingGraph

/-- A walk that the search has reached: its last qubit and the qubits before it, latest first. -/
abbrev Trail := Nat × List Nat

/-- The qubits of a trail in the order of the walk. -/
def Trail.path (trail : Trail) : List Nat := (trail.1 :: trail.2).reverse

/-- A trail walked on to a neighbour of its last qubit. -/
def Trail.extend (trail : Trail) (q : Nat) : Trail := (q, trail.1 :: trail.2)

/-! ## The search on lists -/

/-- The walks that extend a trail to neighbours not seen before. -/
def extensions (g : CouplingGraph) (seen : List Nat) (trail : Trail) : List Trail :=
  ((g.neighbors trail.1).filter fun q => !seen.contains q).map trail.extend

/-- Follows the waiting trails in order until one ends at the goal. Every qubit is seen once, so the
fuel of one step for each is enough. -/
def search (g : CouplingGraph) (goal : Nat) : Nat → List Nat → List Trail → Option (List Nat)
  | 0, _, _ => none
  | _, _, [] => none
  | fuel + 1, seen, trail :: waiting =>
    if trail.1 = goal then some trail.path
    else
      let more := g.extensions seen trail
      search g goal fuel (seen ++ more.map Prod.fst) (waiting ++ more)

/-- The number of neighbours stored in a graph. -/
def storedNeighbors (g : CouplingGraph) : Nat :=
  (g.adjacency.values.map fun set => set.size).foldl (· + ·) 0

/-! ## The queue -/

/-- Trails in order of arrival: those in front, and those behind them with the latest first. -/
structure Waiting where
  front : List Trail
  behind : List Trail

namespace Waiting

/-- The trails in order of arrival. -/
def toList (w : Waiting) : List Trail := w.front ++ w.behind.reverse

/-- The first trail and the rest of the queue. -/
def next? : Waiting → Option (Trail × Waiting)
  | ⟨trail :: front, behind⟩ => some (trail, ⟨front, behind⟩)
  | ⟨[], behind⟩ =>
    match behind.reverse with
    | trail :: front => some (trail, ⟨front, []⟩)
    | [] => none

/-- Trails that join the queue at its end. -/
def join (w : Waiting) (more : List Trail) : Waiting := ⟨w.front, more.reverseAux w.behind⟩

theorem toList_of_next?_eq_none {w : Waiting} (h : w.next? = none) : w.toList = [] := by
  obtain ⟨_ | ⟨trail, front⟩, behind⟩ := w
  · cases hb : behind.reverse with
    | nil => simpa [toList] using hb
    | cons trail front => simp [next?, hb] at h
  · cases h

theorem toList_of_next?_eq_some {w rest : Waiting} {trail : Trail}
    (h : w.next? = some (trail, rest)) : w.toList = trail :: rest.toList := by
  obtain ⟨_ | ⟨first, front⟩, behind⟩ := w
  · cases hb : behind.reverse with
    | nil => simp [next?, hb] at h
    | cons first front =>
      simp only [next?, hb, Option.some.injEq, Prod.mk.injEq] at h
      obtain ⟨rfl, rfl⟩ := h
      simp [toList, hb]
  · simp only [next?, Option.some.injEq, Prod.mk.injEq] at h
    obtain ⟨rfl, rfl⟩ := h
    rfl

theorem toList_join (w : Waiting) (more : List Trail) :
    (w.join more).toList = w.toList ++ more := by
  simp [join, toList, List.reverseAux_eq]

end Waiting

/-! ## The search with a queue -/

/-- The neighbours by qubit, to look up. -/
def table (g : CouplingGraph) : Std.HashMap Nat (List Nat) :=
  .ofList (g.adjacency.entries.map fun e => (e.1, e.2.keys))

/-- The search with a queue of trails and a hashed set of the qubits seen. -/
def searchBy (table : Std.HashMap Nat (List Nat)) (goal : Nat) :
    Nat → Std.HashSet Nat → Waiting → Option (List Nat)
  | 0, _, _ => none
  | fuel + 1, seen, waiting =>
    match waiting.next? with
    | none => none
    | some (trail, rest) =>
      if trail.1 = goal then some trail.path
      else
        let found := (table.getD trail.1 []).filter fun q => !seen.contains q
        searchBy table goal fuel (seen.insertMany found) (rest.join (found.map trail.extend))

/-- A path with the fewest steps from one qubit to another, both included. -/
def shortestPath (g : CouplingGraph) (start goal : Nat) : Option (List Nat) :=
  searchBy g.table goal (g.storedNeighbors + 1) {start} ⟨[(start, [])], []⟩

/-! ## Both searches agree -/

theorem table_getD (g : CouplingGraph) (q : Nat) : g.table.getD q [] = g.neighbors q := by
  have hfilter := Entries.filter_key q g.adjacency.sorted
  rw [neighbors, SortedMap.get?]
  cases hfind : Entries.find? q g.adjacency.entries with
  | none =>
    -- no entry has the key
    rw [hfind] at hfilter
    refine Std.HashMap.getD_ofList_of_contains_eq_false ?_
    have hnot := List.filter_eq_nil_iff.1 hfilter
    simp only [decide_eq_true_eq] at hnot
    simpa using fun set hset => hnot _ hset rfl
  | some set =>
    -- the entry is in the list, and no other has its key
    rw [hfind] at hfilter
    have hin : (q, set) ∈ g.adjacency.entries.filter fun e => e.1 = q := by
      rw [hfilter]
      exact List.mem_singleton_self _
    have hmem := (List.mem_filter.1 hin).1
    refine Std.HashMap.getD_ofList_of_mem (k := q) BEq.rfl ?_ ?_
    · refine List.pairwise_map.2 (g.adjacency.sorted.imp fun {e e'} h => ?_)
      exact beq_eq_false_iff_ne.2 fun he => KeyOrder.irrefl e.1 (he ▸ h)
    · exact List.mem_map.2 ⟨_, hmem, rfl⟩

theorem searchBy_eq_search (g : CouplingGraph) (goal fuel : Nat) (seen : Std.HashSet Nat)
    (waiting : Waiting) (qs : List Nat) (h : ∀ q, seen.contains q = qs.contains q) :
    searchBy g.table goal fuel seen waiting = g.search goal fuel qs waiting.toList := by
  induction fuel generalizing seen waiting qs with
  | zero => rfl
  | succ fuel ih =>
    rw [searchBy]
    split
    · next hnext =>
      rw [Waiting.toList_of_next?_eq_none hnext]
      rfl
    · next trail rest hnext =>
      rw [Waiting.toList_of_next?_eq_some hnext, search, table_getD]
      -- the hashed set and the list have the same members, before the step and after it
      have hseen : ((g.neighbors trail.1).filter fun q => !seen.contains q) =
          (g.neighbors trail.1).filter fun q => !qs.contains q := by simp only [h]
      split
      · rfl
      · rw [ih _ _ (qs ++ (g.extensions qs trail).map Prod.fst), Waiting.toList_join, hseen]
        · rfl
        · intro q
          rw [Std.HashSet.contains_insertMany_list, h, hseen]
          simp [extensions, Function.comp_def, Trail.extend]

theorem searchBy_start (g : CouplingGraph) (start goal fuel : Nat) :
    searchBy g.table goal fuel {start} ⟨[(start, [])], []⟩ =
      g.search goal fuel [start] [(start, [])] := by
  refine searchBy_eq_search g goal _ _ _ [start] fun q => ?_
  simp [Std.HashSet.singleton_eq_insert, eq_comm, Bool.beq_eq_decide_eq]

theorem shortestPath_eq_search (g : CouplingGraph) (start goal : Nat) :
    g.shortestPath start goal =
      g.search goal (g.storedNeighbors + 1) [start] [(start, [])] :=
  g.searchBy_start start goal (g.storedNeighbors + 1)

end QuantumWorkbench.CouplingGraph
