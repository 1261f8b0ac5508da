import Mathlib
import QuantumWorkbench.Proofs.Coupling.Edges
import QuantumWorkbench.Proofs.Coupling.Search

/-!
# Coupling graphs that are built

A graph is built from one without edges by adding edges; the topologies are built so too. Whatever
is added, neighbours stay mutual, no qubit becomes its own neighbour, and the list of edges, the
degrees and the neighbours tell the same. The number of qubits never goes down and covers both ends
of every edge but for one qubit: after the last index there is no next one to count up to.
-/

namespace QuantumWorkbench.CouplingGraph

variable {g : CouplingGraph} {a b : ℕ}

/-! ## Ways to build a graph -/

/-- The graphs that are built: a topology or the graph of a list of edges between indices, and
whatever edges are added to them. -/
inductive Buildable : CouplingGraph → Prop where
  | edgeless {n : ℕ} (hn : n < Index.limit) : Buildable (edgeless n)
  | ofEdges {n : ℕ} {edges : List (ℕ × ℕ)} (hn : n < Index.limit)
      (hedges : ∀ e ∈ edges, e.1 < Index.limit ∧ e.2 < Index.limit) : Buildable (ofEdges n edges)
  | complete {n : ℕ} (hn : n < Index.limit) : Buildable (complete n)
  | chain {n : ℕ} (hn : n < Index.limit) : Buildable (chain n)
  | ring {n : ℕ} (hn : n < Index.limit) : Buildable (ring n)
  | grid (rows cols : ℕ) : Buildable (grid rows cols)
  | addEdge {g : CouplingGraph} {a b : ℕ} (hg : Buildable g) (ha : a < Index.limit)
      (hb : b < Index.limit) : Buildable (g.addEdge a b)

/-- **What single edges keep holds of every graph that is built**: each way to build one adds edges
between indices to a graph without edges. -/
theorem Buildable.edge_induction {P : CouplingGraph → Prop}
    (hstart : ∀ n < Index.limit, P (CouplingGraph.edgeless n))
    (hstep : ∀ {g a b}, P g → a < Index.limit → b < Index.limit → P (g.addEdge a b))
    (hg : Buildable g) : P g := by
  have hlist {n : ℕ} (hn : n < Index.limit) {edges : List (ℕ × ℕ)}
      (hedges : ∀ e ∈ edges, e.1 < Index.limit ∧ e.2 < Index.limit) :
      P (CouplingGraph.ofEdges n edges) := by
    rw [CouplingGraph.ofEdges, addEdges_eq_foldl]
    -- edge by edge, from any graph with the property on
    have hbefore := hstart n hn
    generalize CouplingGraph.edgeless n = g at hbefore ⊢
    induction edges generalizing g with
    | nil => exact hbefore
    | cons e edges ih =>
      obtain ⟨he, hedges⟩ := List.forall_mem_cons.1 hedges
      exact ih hedges _ (hstep hbefore he.1 he.2)
  have hline {n : ℕ} (hn : n < Index.limit) : P (CouplingGraph.chain n) := by
    obtain ⟨edges, hgraph, hedges⟩ := exists_edges_chain n
    exact hgraph ▸ hlist hn fun e he => by have := (hedges e).1 he; omega
  induction hg with
  | edgeless hn => exact hstart _ hn
  | ofEdges hn hedges => exact hlist hn hedges
  | @complete n hn =>
    obtain ⟨edges, hgraph, hedges⟩ := exists_edges_complete n
    exact hgraph ▸ hlist hn fun e he => by have := (hedges e).1 he; omega
  | chain hn => exact hline hn
  | ring hn =>
    -- a line, closed by one more edge where it is long enough
    unfold CouplingGraph.ring
    split
    · exact hstep (hline hn) (by omega) (by omega)
    · exact hline hn
  | grid rows cols => exact hlist (Index.wrap_lt _) lt_limit_of_mem_gridEdges
  | addEdge _ ha hb ih => exact hstep ih ha hb

/-! ## What one edge keeps -/

/-- Connected pairs are mutual and consist of two different indices, and a qubit of such a pair is
counted, unless it is the last index. -/
structure Consistent (g : CouplingGraph) : Prop where
  symm : ∀ a b, g.connects a b = true → g.connects b a = true
  apart : ∀ a, g.connects a a = false
  indices : ∀ a b, g.connects a b = true → a < Index.limit
  counted : ∀ a b, g.connects a b = true → a + 1 < Index.limit → a < g.qubits
  bounded : g.qubits < Index.limit

theorem consistent_edgeless {n : ℕ} (hn : n < Index.limit) : (edgeless n).Consistent where
  symm _ _ h := h
  apart _ := rfl
  indices _ _ h := by cases h
  counted _ _ h := by cases h
  bounded := hn

/-- **The step**: an edge between two indices keeps a graph consistent. -/
theorem Consistent.addEdge (hg : g.Consistent) (ha : a < Index.limit) (hb : b < Index.limit) :
    (g.addEdge a b).Consistent where
  symm p q h := by
    rw [connects_addEdge] at h ⊢
    exact h.imp (hg.symm p q) fun ⟨hab, h⟩ => ⟨hab, h.symm.imp And.symm And.symm⟩
  apart p := by
    refine Bool.eq_false_iff.2 fun hself => ?_
    rcases connects_addEdge.1 hself with h | ⟨hab, ⟨rfl, h⟩ | ⟨rfl, h⟩⟩
    · exact Bool.eq_false_iff.1 (hg.apart p) h
    · exact hab h
    · exact hab h.symm
  indices p q h := by
    rcases connects_addEdge.1 h with h | ⟨-, ⟨rfl, -⟩ | ⟨rfl, -⟩⟩
    · exact hg.indices p q h
    · exact ha
    · exact hb
  counted p q h hp := by
    rcases connects_addEdge.1 h with h | ⟨hab, h⟩
    · exact (hg.counted p q h hp).trans_le (qubits_le_addEdge g a b)
    · -- the count goes up to the next index of both ends
      have hnext := Index.next_of_lt hp
      rw [qubits_addEdge_of_ne hab]
      rcases h with ⟨rfl, -⟩ | ⟨rfl, -⟩
      · omega
      · omega
  bounded := by
    by_cases hab : a = b
    · rw [CouplingGraph.addEdge, if_pos hab]
      exact hg.bounded
    · rw [qubits_addEdge_of_ne hab]
      exact max_lt (max_lt hg.bounded (Index.next_lt a)) (Index.next_lt b)

theorem Buildable.consistent (hg : Buildable g) : g.Consistent :=
  hg.edge_induction (fun _ hn => consistent_edgeless hn) Consistent.addEdge

/-! ## The list of edges -/

/-- The list of edges holds the connected pairs with the lower qubit first, in every graph. -/
theorem mem_edges_iff : (a, b) ∈ g.edges ↔ a < b ∧ g.connects a b = true := by
  simp only [edges, connects, List.contains_iff_mem, mem_neighbors_iff, List.mem_flatMap,
    List.mem_map, List.mem_filter, decide_eq_true_eq]
  constructor
  · rintro ⟨⟨_, set⟩, hentry, _, ⟨hmem, hlt⟩, heq⟩
    cases heq
    exact ⟨hlt, set, SortedMap.get?_of_mem_entries hentry, hmem⟩
  · rintro ⟨hlt, set, hset, hmem⟩
    exact ⟨(a, set), SortedMap.mem_entries_of_get? hset, b, ⟨hmem, hlt⟩, rfl⟩

/-- No edge is listed twice. -/
theorem nodup_edges (g : CouplingGraph) : g.edges.Nodup := by
  refine List.nodup_flatMap.2 ⟨fun e _ => ?_, g.adjacency.sorted.imp fun {e e'} hlt => ?_⟩
  · exact (e.2.nodup_keys.filter _).map fun _ _ h => congrArg Prod.snd h
  · -- the edges of two entries differ in the lower qubit
    intro pair h h'
    obtain ⟨_, -, rfl⟩ := List.mem_map.1 h
    obtain ⟨_, -, heq⟩ := List.mem_map.1 h'
    exact KeyOrder.irrefl e.1 (congrArg Prod.fst heq ▸ hlt)

/-- A pair of qubits with the lower one first. -/
def unordered (q p : ℕ) : ℕ × ℕ := (min q p, max q p)

theorem unordered_injective (q : ℕ) : Function.Injective (unordered q) := by
  intro p p' h
  obtain ⟨hmin, hmax⟩ := Prod.mk.inj h
  omega

/-- **The degree** of a qubit counts the edges at it. -/
theorem Consistent.degree_eq (hg : g.Consistent) (q : ℕ) :
    g.degree q = g.edges.countP fun e => e.1 = q ∨ e.2 = q := by
  have hsame : ((g.neighbors q).map (unordered q)).Perm
      (g.edges.filter fun e => e.1 = q ∨ e.2 = q) := by
    refine (List.perm_ext_iff_of_nodup ((g.nodup_neighbors q).map (unordered_injective q))
      (g.nodup_edges.filter _)).2 fun ⟨x, y⟩ => ?_
    simp only [List.mem_map, List.mem_filter, mem_edges_iff, decide_eq_true_eq]
    constructor
    · rintro ⟨p, hp, heq⟩
      have hconnects : g.connects q p = true := List.contains_iff_mem.2 hp
      have hne : q ≠ p := by
        rintro rfl
        exact Bool.eq_false_iff.1 (hg.apart q) hconnects
      obtain ⟨rfl, rfl⟩ := Prod.mk.inj heq
      -- the neighbour comes second or first
      rcases Nat.lt_or_gt_of_ne hne with hlt | hlt
      · rw [min_eq_left hlt.le, max_eq_right hlt.le]
        exact ⟨⟨hlt, hconnects⟩, Or.inl rfl⟩
      · rw [min_eq_right hlt.le, max_eq_left hlt.le]
        exact ⟨⟨hlt, hg.symm q p hconnects⟩, Or.inr rfl⟩
    · rintro ⟨⟨hlt, hconnects⟩, rfl | rfl⟩
      · exact ⟨y, List.contains_iff_mem.1 hconnects,
          Prod.ext (min_eq_left hlt.le) (max_eq_right hlt.le)⟩
      · exact ⟨x, List.contains_iff_mem.1 (hg.symm x y hconnects),
          Prod.ext (min_eq_right hlt.le) (max_eq_left hlt.le)⟩
  rw [degree, List.countP_eq_length_filter, ← hsame.length_eq, List.length_map]

/-! ## All views of a graph -/

/-- **The views of a graph that is built agree**. Neighbours are mutual, and no qubit is its own.
The list of edges holds every connected pair once, with the lower qubit first, and the degree of a
qubit is the number of edges at it. No edge lowers the number of qubits, and every qubit at an edge
is below that number, the last index alone excepted. -/
theorem buildable_views_agree (hg : Buildable g) :
    (∀ a b, g.connects a b = g.connects b a) ∧ (∀ a, g.connects a a = false) ∧
    (∀ a b, g.connects a b = true → (a < g.qubits ↔ a + 1 ≠ Index.limit)) ∧
    (∀ a b, g.qubits ≤ (g.addEdge a b).qubits) ∧
    g.edges.Nodup ∧ (∀ a b, (a, b) ∈ g.edges ↔ a < b ∧ g.connects a b = true) ∧
    ∀ q, g.degree q = g.edges.countP fun e => e.1 = q ∨ e.2 = q := by
  have hconsistent := hg.consistent
  refine ⟨fun a b => ?_, hconsistent.apart, fun a b hab => ?_, g.qubits_le_addEdge,
    g.nodup_edges, fun _ _ => mem_edges_iff, hconsistent.degree_eq⟩
  · exact Bool.eq_iff_iff.2 ⟨hconsistent.symm a b, hconsistent.symm b a⟩
  · have hindex := hconsistent.indices a b hab
    have hbounded := hconsistent.bounded
    refine ⟨fun h => by omega, fun h => hconsistent.counted a b hab (by omega)⟩

/-- A ring of four qubits with both diagonals, one of them entered twice; a qubit joined to itself;
and an edge to the last index. -/
def patched : CouplingGraph :=
  (((((ring 4).addEdge 1 3).addEdge 3 1).addEdge 2 2).addEdge 2 0).addEdge 0 (Index.limit - 1)

theorem buildable_patched : Buildable patched :=
  .addEdge (.addEdge (.addEdge (.addEdge (.addEdge (.ring (by decide)) (by decide) (by decide))
    (by decide) (by decide)) (by decide) (by decide)) (by decide) (by decide)) (by decide)
    (by decide)

theorem buildable_views_agree_patched :
    Buildable patched ∧ (0 < patched.qubits ↔ 0 + 1 ≠ Index.limit) ∧
      patched.edges.Nodup ∧ ((1, 3) ∈ patched.edges ↔ 1 < 3 ∧ patched.connects 1 3 = true) ∧
      4 = patched.edges.countP fun e => e.1 = 0 ∨ e.2 = 0 := by
  obtain ⟨-, -, hcounted, -, hnodup, hedges, hdegree⟩ := buildable_views_agree buildable_patched
  exact ⟨buildable_patched, hcounted 0 3 (by decide), hnodup, hedges 1 3,
    (show 4 = patched.degree 0 by decide).trans (hdegree 0)⟩

/-- One qubit, and an edge from the last index to it. -/
def farthest : CouplingGraph := (edgeless 1).addEdge (Index.limit - 1) 0

/-- The last index is at an edge and not below the number of qubits: counting up to the next one
wraps around. -/
theorem not_counted_farthest :
    Buildable farthest ∧ farthest.edges = [(0, Index.limit - 1)] ∧ farthest.qubits = 1 ∧
      ¬ ∀ a b, farthest.connects a b = true → a < farthest.qubits := by
  have hbuildable : Buildable farthest :=
    .addEdge (.edgeless (by decide)) (by decide) (by decide)
  refine ⟨hbuildable, by decide, by decide, fun h => ?_⟩
  exact absurd (h (Index.limit - 1) 0 (by decide)) (by decide)

end QuantumWorkbench.CouplingGraph
