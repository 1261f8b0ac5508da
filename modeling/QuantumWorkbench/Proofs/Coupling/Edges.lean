import Mathlib
import QuantumWorkbench.Coupling.Graph
import QuantumWorkbench.Proofs.SortedMap

/-!
# The pairs that a coupling graph connects

Adding an edge connects its two ends, both ways round, and changes no other pair. So a graph that is
built edge by edge connects exactly the pairs of its edges, and a topology the pairs that its shape
asks for.
-/

namespace QuantumWorkbench.CouplingGraph

variable {g : CouplingGraph} {a b p q : ℕ}

/-! ## Edges added one by one -/

theorem mem_neighbors_iff :
    q ∈ g.neighbors p ↔ ∃ set, g.adjacency.get? p = some set ∧ q ∈ set.keys := by
  unfold neighbors
  cases g.adjacency.get? p with
  | none => simp
  | some set => simp

theorem mem_neighbors_link {n : ℕ} {adjacency : SortedMap ℕ (SortedSet ℕ)} :
    q ∈ neighbors ⟨n, link adjacency a b⟩ p ↔
      q ∈ neighbors ⟨n, adjacency⟩ p ∨ p = a ∧ q = b := by
  simp only [mem_neighbors_iff, link]
  by_cases h : p = a
  · subst h
    rw [SortedMap.get?_update_self]
    simp only [Option.some.injEq, exists_eq_left', SortedMap.mem_keys_insert, true_and]
    -- a qubit without an entry has no neighbours yet
    cases adjacency.get? p with
    | none => simp [SortedMap.keys_empty]
    | some set => simp [or_comm]
  · rw [SortedMap.get?_update_of_ne _ h]
    simp [h]

/-- **An edge** connects its two ends, unless they are one qubit. -/
theorem connects_addEdge :
    (g.addEdge a b).connects p q = true ↔
      g.connects p q = true ∨ a ≠ b ∧ (p = a ∧ q = b ∨ p = b ∧ q = a) := by
  unfold addEdge
  split
  · next heq => simp [heq]
  · next hne =>
    simp only [connects, List.contains_iff_mem, mem_neighbors_link, or_assoc]
    exact or_congr_right (and_iff_right hne).symm

theorem connects_addEdges {edges : List (ℕ × ℕ)} :
    (g.addEdges edges).connects p q = true ↔
      g.connects p q = true ∨ p ≠ q ∧ ((p, q) ∈ edges ∨ (q, p) ∈ edges) := by
  rw [addEdges_eq_foldl]
  induction edges generalizing g with
  | nil => simp
  | cons e edges ih =>
    rw [List.foldl_cons, ih, connects_addEdge]
    grind

theorem connects_edgeless {n : ℕ} : (edgeless n).connects p q = false := rfl

/-- **A graph of a list of edges** connects the pairs of the list, both ways round. -/
theorem connects_ofEdges {n : ℕ} {edges : List (ℕ × ℕ)} :
    (ofEdges n edges).connects p q = true ↔ p ≠ q ∧ ((p, q) ∈ edges ∨ (q, p) ∈ edges) := by
  rw [ofEdges, connects_addEdges, connects_edgeless]
  simp

/-! ## The number of qubits -/

theorem next_le (i : ℕ) : Index.next i ≤ i + 1 := Nat.mod_le _ _

theorem qubits_addEdge_of_ne (hab : a ≠ b) :
    (g.addEdge a b).qubits = max (max g.qubits (Index.next a)) (Index.next b) := by
  rw [addEdge, if_neg hab]

/-- No edge takes a qubit away. -/
theorem qubits_le_addEdge (g : CouplingGraph) (a b : ℕ) : g.qubits ≤ (g.addEdge a b).qubits := by
  by_cases hab : a = b
  · rw [addEdge, if_pos hab]
  · rw [qubits_addEdge_of_ne hab]
    exact le_max_of_le_left (le_max_left _ _)

/-- An edge between two of the qubits adds none. -/
theorem qubits_addEdge (ha : a < g.qubits) (hb : b < g.qubits) :
    (g.addEdge a b).qubits = g.qubits := by
  by_cases hab : a = b
  · rw [addEdge, if_pos hab]
  · have hle := next_le a
    have hle' := next_le b
    rw [qubits_addEdge_of_ne hab]
    omega

theorem qubits_addEdges {edges : List (ℕ × ℕ)}
    (hedges : ∀ e ∈ edges, e.1 < g.qubits ∧ e.2 < g.qubits) :
    (g.addEdges edges).qubits = g.qubits := by
  rw [addEdges_eq_foldl]
  induction edges generalizing g with
  | nil => rfl
  | cons e edges ih =>
    obtain ⟨he, hedges⟩ := List.forall_mem_cons.1 hedges
    have hsame := qubits_addEdge he.1 he.2
    rw [List.foldl_cons, ih (by rwa [hsame]), hsame]

theorem qubits_ofEdges {n : ℕ} {edges : List (ℕ × ℕ)}
    (hedges : ∀ e ∈ edges, e.1 < n ∧ e.2 < n) : (ofEdges n edges).qubits = n :=
  qubits_addEdges hedges

/-! ## Topologies -/

theorem exists_edges_complete (n : ℕ) :
    ∃ edges, complete n = ofEdges n edges ∧ ∀ e, e ∈ edges ↔ e.1 < e.2 ∧ e.2 < n := by
  refine ⟨_, rfl, fun e => ?_⟩
  simp only [List.mem_flatMap, List.mem_range, List.mem_map, List.mem_range'_1]
  constructor
  · rintro ⟨a, ha, b, hb, rfl⟩
    dsimp only
    omega
  · exact fun h => ⟨e.1, by omega, e.2, by omega, rfl⟩

theorem exists_edges_chain (n : ℕ) :
    ∃ edges, chain n = ofEdges n edges ∧ ∀ e, e ∈ edges ↔ e.2 = e.1 + 1 ∧ e.2 < n := by
  refine ⟨_, rfl, fun e => ?_⟩
  simp only [List.mem_map, List.mem_range]
  constructor
  · rintro ⟨a, ha, rfl⟩
    dsimp only
    omega
  · exact fun h => ⟨e.1, by omega, Prod.ext rfl h.1.symm⟩

theorem connects_complete {n : ℕ} :
    (complete n).connects p q = true ↔ p ≠ q ∧ p < n ∧ q < n := by
  obtain ⟨edges, hgraph, hedges⟩ := exists_edges_complete n
  rw [hgraph, connects_ofEdges, hedges, hedges]
  dsimp only
  omega

theorem connects_chain {n : ℕ} :
    (chain n).connects p q = true ↔ q = p + 1 ∧ q < n ∨ p = q + 1 ∧ p < n := by
  obtain ⟨edges, hgraph, hedges⟩ := exists_edges_chain n
  rw [hgraph, connects_ofEdges, hedges, hedges]
  dsimp only
  omega

theorem connects_ring {n : ℕ} (hn : 2 < n) :
    (ring n).connects p q = true ↔
      (chain n).connects p q = true ∨ p = n - 1 ∧ q = 0 ∨ p = 0 ∧ q = n - 1 := by
  rw [ring, if_pos hn, connects_addEdge, and_iff_right (by omega)]

@[simp] theorem qubits_complete (n : ℕ) : (complete n).qubits = n := by
  obtain ⟨edges, hgraph, hedges⟩ := exists_edges_complete n
  rw [hgraph]
  exact qubits_ofEdges fun e he => by have := (hedges e).1 he; omega

@[simp] theorem qubits_chain (n : ℕ) : (chain n).qubits = n := by
  obtain ⟨edges, hgraph, hedges⟩ := exists_edges_chain n
  rw [hgraph]
  exact qubits_ofEdges fun e he => by have := (hedges e).1 he; omega

@[simp] theorem qubits_ring (n : ℕ) : (ring n).qubits = n := by
  unfold ring
  split
  · rw [qubits_addEdge, qubits_chain]
    all_goals
      rw [qubits_chain]
      omega
  · exact qubits_chain n

/-! ## Lattices -/

/-- Both ends of an edge are indices, whatever the size of the lattice. -/
theorem lt_limit_of_mem_gridEdges {rows cols : ℕ} :
    ∀ e ∈ gridEdges rows cols, e.1 < Index.limit ∧ e.2 < Index.limit := by
  intro e he
  unfold gridEdges at he
  split at he
  · cases he
  · obtain ⟨row, -, he⟩ := List.mem_flatMap.1 he
    obtain ⟨col, -, he⟩ := List.mem_flatMap.1 he
    rcases List.mem_append.1 he with he | he
    · split at he
      · rw [List.mem_singleton.1 he]
        exact ⟨Index.wrap_lt _, Index.wrap_lt _⟩
      · cases he
    · split at he
      · rw [List.mem_singleton.1 he]
        exact ⟨Index.wrap_lt _, Index.wrap_lt _⟩
      · cases he

theorem place_lt {rows cols row col : ℕ} (hrow : row < rows) (hcol : col < cols) :
    row * cols + col < rows * cols :=
  calc row * cols + col < (row + 1) * cols := by rw [Nat.succ_mul]; omega
    _ ≤ rows * cols := Nat.mul_le_mul_right cols hrow

theorem row_place {cols row col : ℕ} (hcol : col < cols) : (row * cols + col) / cols = row := by
  rw [Nat.mul_comm, Nat.mul_add_div (by omega), Nat.div_eq_of_lt hcol, Nat.add_zero]

theorem col_place {cols row col : ℕ} (hcol : col < cols) : (row * cols + col) % cols = col := by
  rw [Nat.mul_comm, Nat.mul_add_mod, Nat.mod_eq_of_lt hcol]

/-- A qubit of a lattice stands in a row and a column. -/
theorem exists_place {rows cols q : ℕ} (hq : q < rows * cols) :
    ∃ row < rows, ∃ col < cols, q = row * cols + col := by
  have hcols : 0 < cols := Nat.pos_of_ne_zero fun h => by simp [h] at hq
  exact ⟨q / cols, Nat.div_lt_of_lt_mul (Nat.mul_comm rows cols ▸ hq), q % cols,
    Nat.mod_lt q hcols, (Nat.div_add_mod' q cols).symm⟩

/-- The edges that a place of the lattice adds: to the next column, and to the next row. -/
theorem mem_edges_of_place {rows cols row col : ℕ} (hsize : rows * cols < Index.limit)
    (hrow : row < rows) (hcol : col < cols) :
    (p, q) ∈ (if col + 1 < cols then [(Index.wrap (row * cols + col),
        Index.next (Index.wrap (row * cols + col)))] else []) ++
      (if row + 1 < rows then [(Index.wrap (row * cols + col),
        Index.wrap (Index.wrap (row * cols + col) + cols))] else []) ↔
    p = row * cols + col ∧ (col + 1 < cols ∧ q = row * cols + (col + 1) ∨
      row + 1 < rows ∧ q = (row + 1) * cols + col) := by
  have hplace := place_lt hrow hcol
  have hright (h : col + 1 < cols) := place_lt hrow h
  have hbelow (h : row + 1 < rows) := place_lt h hcol
  have hrows : (row + 1) * cols + col = row * cols + col + cols := by rw [Nat.succ_mul]; omega
  -- the neighbours lie in the lattice, so none of the sums wraps
  rw [Index.wrap_of_lt (by omega), List.mem_append]
  by_cases h : col + 1 < cols <;> by_cases h' : row + 1 < rows
  · have hnext := hright h
    have hunder := hbelow h'
    rw [Index.next_of_lt (by omega), Index.wrap_of_lt (by omega)]
    simp [h, h', hrows]
    omega
  · have hnext := hright h
    rw [Index.next_of_lt (by omega)]
    simp [h, h']
    omega
  · have hunder := hbelow h'
    rw [Index.wrap_of_lt (by omega)]
    simp [h, h', hrows]
  · simp [h, h']

/-- The edges of a lattice whose qubits are indices: to the next column, and to the next row. -/
theorem mem_gridEdges {rows cols : ℕ} (hsize : rows * cols < Index.limit) :
    (p, q) ∈ gridEdges rows cols ↔ ∃ row < rows, ∃ col < cols, p = row * cols + col ∧
      (col + 1 < cols ∧ q = row * cols + (col + 1) ∨
        row + 1 < rows ∧ q = (row + 1) * cols + col) := by
  unfold gridEdges
  split
  · next hcols => simp [hcols]
  · simp only [List.mem_flatMap, List.mem_range]
    constructor
    · rintro ⟨row, hrow, col, hcol, he⟩
      exact ⟨row, hrow, col, hcol, (mem_edges_of_place hsize hrow hcol).1 he⟩
    · rintro ⟨row, hrow, col, hcol, he⟩
      exact ⟨row, hrow, col, hcol, (mem_edges_of_place hsize hrow hcol).2 he⟩

theorem lt_of_mem_gridEdges {rows cols : ℕ} (hsize : rows * cols < Index.limit)
    (he : (p, q) ∈ gridEdges rows cols) : p < rows * cols ∧ q < rows * cols := by
  obtain ⟨row, hrow, col, hcol, rfl, ⟨hnext, rfl⟩ | ⟨hnext, rfl⟩⟩ := (mem_gridEdges hsize).1 he
  · exact ⟨place_lt hrow hcol, place_lt hrow hnext⟩
  · exact ⟨place_lt hrow hcol, place_lt hnext hcol⟩

theorem qubits_grid {rows cols : ℕ} (hsize : rows * cols < Index.limit) :
    (grid rows cols).qubits = rows * cols := by
  rw [grid, Index.wrap_of_lt hsize]
  exact qubits_ofEdges fun _ he => lt_of_mem_gridEdges hsize he

theorem inside_grid {rows cols : ℕ} (hsize : rows * cols < Index.limit)
    (h : (grid rows cols).connects p q = true) : p < rows * cols ∧ q < rows * cols := by
  rw [grid, connects_ofEdges] at h
  exact h.2.elim (lt_of_mem_gridEdges hsize) fun he => (lt_of_mem_gridEdges hsize he).symm

section Places

variable {rows cols row col row' col' : ℕ}

theorem place_inj (hcol : col < cols) (hcol' : col' < cols) :
    row * cols + col = row' * cols + col' ↔ row = row' ∧ col = col' := by
  refine ⟨fun h => ?_, fun ⟨hrow, hcol⟩ => by rw [hrow, hcol]⟩
  have hdiv := congrArg (· / cols) h
  have hmod := congrArg (· % cols) h
  rw [row_place hcol, row_place hcol'] at hdiv
  rw [col_place hcol, col_place hcol'] at hmod
  exact ⟨hdiv, hmod⟩

theorem place_mem_gridEdges (hsize : rows * cols < Index.limit) (hrow : row < rows)
    (hcol : col < cols) (hrow' : row' < rows) (hcol' : col' < cols) :
    (row * cols + col, row' * cols + col') ∈ gridEdges rows cols ↔
      row' = row ∧ col' = col + 1 ∨ row' = row + 1 ∧ col' = col := by
  rw [mem_gridEdges hsize]
  constructor
  · rintro ⟨r, -, c, hc, hplace, ⟨hnext, hplace'⟩ | ⟨-, hplace'⟩⟩
    · have hat := (place_inj hcol hc).1 hplace
      have hat' := (place_inj hcol' hnext).1 hplace'
      omega
    · have hat := (place_inj hcol hc).1 hplace
      have hat' := (place_inj hcol' hc).1 hplace'
      omega
  · rintro (⟨rfl, rfl⟩ | ⟨rfl, rfl⟩)
    · exact ⟨row', hrow, col, hcol, rfl, Or.inl ⟨hcol', rfl⟩⟩
    · exact ⟨row, hrow, col', hcol, rfl, Or.inr ⟨hrow', rfl⟩⟩

/-- A lattice connects the qubits one step apart, along a row or a column. -/
theorem connects_grid (hsize : rows * cols < Index.limit) (hrow : row < rows) (hcol : col < cols)
    (hrow' : row' < rows) (hcol' : col' < cols) :
    (grid rows cols).connects (row * cols + col) (row' * cols + col') = true ↔
      Nat.dist row row' + Nat.dist col col' = 1 := by
  rw [grid, connects_ofEdges, Ne, place_inj hcol hcol',
    place_mem_gridEdges hsize hrow hcol hrow' hcol',
    place_mem_gridEdges hsize hrow' hcol' hrow hcol]
  simp only [Nat.dist]
  omega

end Places

end QuantumWorkbench.CouplingGraph
