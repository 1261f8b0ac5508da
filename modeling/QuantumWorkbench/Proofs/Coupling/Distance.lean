import Mathlib
import QuantumWorkbench.Proofs.Coupling.Edges
import QuantumWorkbench.Proofs.Coupling.Exchanges

/-!
# Distances on the topologies

A function of two qubits tells the distances of a graph if it vanishes at the goal, no edge lowers
it by more than one, and away from the goal some edge does. On a chain, a ring, a lattice and a
complete graph such a function has a closed form. So the shortest paths there have the lengths it
gives, and routing puts one exchange less before a gate on two qubits.
-/

namespace QuantumWorkbench.CouplingGraph

variable {g : CouplingGraph} {dist : ℕ → ℕ → ℕ} {a b p q : ℕ}

/-! ## Functions that tell the distances -/

/-- The rules of a function that tells the distances of a graph. -/
structure Tells (g : CouplingGraph) (dist : ℕ → ℕ → ℕ) : Prop where
  /-- Edges join qubits of the graph. -/
  inside : ∀ {p q}, g.connects p q = true → p < g.qubits ∧ q < g.qubits
  self : ∀ b, dist b b = 0
  /-- An edge brings no qubit nearer by more than one. -/
  edge : ∀ {p q b}, g.connects p q = true → b < g.qubits → dist p b ≤ dist q b + 1
  /-- From any other qubit some edge leads nearer. -/
  closer : ∀ {a b}, a < g.qubits → b < g.qubits → a ≠ b →
    ∃ q < g.qubits, g.connects a q = true ∧ dist a b = dist q b + 1

theorem IsWalk.cons {path : List ℕ} (hedge : g.connects p q = true) (h : g.IsWalk q b path) :
    g.IsWalk p b (p :: path) := by
  obtain ⟨rest, rfl⟩ := List.head?_eq_some_iff.1 h.origin
  exact ⟨List.isChain_cons_cons.2 ⟨hedge, h.edges⟩, rfl, List.getLast?_cons_cons.trans h.target⟩

/-- No walk is shorter, as every edge of it lowers the distance by one at most. -/
theorem Tells.le_of_isWalk (h : g.Tells dist) (hb : b < g.qubits) {path : List ℕ}
    (hpath : g.IsWalk a b path) : dist a b + 1 ≤ path.length := by
  induction path generalizing a with
  | nil => cases hpath.origin
  | cons p rest ih =>
    cases hpath.origin
    cases rest with
    | nil =>
      obtain rfl : p = b := Option.some.inj hpath.target
      exact Nat.succ_le_succ (h.self p).le
    | cons q rest =>
      obtain ⟨hedge, hedges⟩ := List.isChain_cons_cons.1 hpath.edges
      have hrest := ih ⟨hedges, rfl, List.getLast?_cons_cons ▸ hpath.target⟩
      have hstep := h.edge hedge hb
      rw [List.length_cons]
      omega

/-- Edges that lower the distance lead to the goal. -/
theorem Tells.exists_isWalk (h : g.Tells dist) (ha : a < g.qubits) (hb : b < g.qubits) :
    ∃ path, g.IsWalk a b path ∧ path.length = dist a b + 1 := by
  -- from the goal backwards, each step one further away
  induction hn : dist a b generalizing a with
  | zero =>
    obtain rfl : a = b := by
      by_contra hab
      obtain ⟨q, -, -, hq⟩ := h.closer ha hb hab
      omega
    exact ⟨[a], ⟨.singleton a, rfl, rfl⟩, rfl⟩
  | succ n ih =>
    have hab : a ≠ b := by
      rintro rfl
      rw [h.self] at hn
      cases hn
    obtain ⟨q, hq, hedge, hlower⟩ := h.closer ha hb hab
    obtain ⟨path, hpath, hlength⟩ := ih hq (by omega)
    exact ⟨a :: path, hpath.cons hedge, congrArg (· + 1) hlength⟩

/-- **A function that obeys the rules** gives the distances. -/
theorem Tells.isDistance (h : g.Tells dist) (ha : a < g.qubits) (hb : b < g.qubits) :
    g.IsDistance a b (dist a b) := by
  refine ⟨h.exists_isWalk ha hb, ?_⟩
  rintro m ⟨path, hpath, hm⟩
  have hle := h.le_of_isWalk hb hpath
  omega

theorem Tells.reflTransGen (h : g.Tells dist) (ha : a < g.qubits) (hb : b < g.qubits) :
    Relation.ReflTransGen (fun x y => g.connects x y = true) a b := by
  obtain ⟨path, hpath, -⟩ := h.exists_isWalk ha hb
  obtain ⟨trail, hend, -, hwalked⟩ := hpath.exists_trail
  exact reflTransGen_iff_walked.2 ⟨trail, hend, hwalked⟩

theorem Tells.exists_shortestPath (h : g.Tells dist) (ha : a < g.qubits) (hb : b < g.qubits) :
    ∃ path, g.shortestPath a b = some path ∧ path.length = dist a b + 1 := by
  obtain ⟨path, hpath⟩ :=
    Option.isSome_iff_exists.1 (shortestPath_isSome_iff.2 (h.reflTransGen ha hb))
  obtain ⟨walk, hwalk, hlength⟩ := h.exists_isWalk ha hb
  have hshortest := isShortest_of_shortestPath hpath
  exact ⟨path, hpath, le_antisymm ((hshortest.least walk hwalk).trans hlength.le)
    (h.le_of_isWalk hb hshortest.walk)⟩

/-! ## Exchanges -/

/-- The number of exchanges before a gate: one less than the distance of its two qubits, and none on
any other number of qubits. -/
def detour (dist : ℕ → ℕ → ℕ) : List ℕ → ℕ
  | [a, b] => dist a b - 1
  | _ => 0

section Routing

variable {width : ℕ}

theorem Tells.length_of_accompanies (h : g.Tells dist) {gate : Gate Float}
    (hgate : ∀ q ∈ gate.qubits, q < g.qubits) {chain : List (ℕ × ℕ)}
    (hchain : Accompanies g width gate chain) : chain.length = detour dist gate.qubits := by
  cases hchain with
  | @pair p q _ hqubits _ hescorts _ =>
    rw [hqubits] at hgate ⊢
    have hdist := h.isDistance (hgate p (by simp)) (hgate q (by simp))
    have hsame := hescorts.distance.unique hdist
    show chain.length = dist p q - 1
    omega
  | other hqubits =>
    unfold detour
    split
    · next hpair => exact absurd (congrArg List.length hpair) hqubits
    · rfl

/-- On a register that holds the qubits of the graph nothing hinders a gate on some of them. -/
theorem Tells.not_hinders (h : g.Tells dist) (hwidth : g.qubits ≤ width) {gate : Gate Float}
    (hgate : ∀ q ∈ gate.qubits, q < g.qubits) (e : RoutingError Float) :
    ¬ Hinders g width gate e := by
  intro hhinders
  cases hhinders with
  | @apart p q hqubits hapart =>
    rw [hqubits] at hgate
    exact hapart (h.reflTransGen (hgate p (by simp)) (hgate q (by simp)))
  | @outside p q x chain _ _ hescorts hfirst =>
    -- the chain goes along edges, and their ends are qubits of the graph
    obtain ⟨path, last, rfl, hwalk, -, -⟩ := hescorts.walk
    obtain ⟨e, he, hx⟩ := List.mem_flatMap.1 (List.mem_of_find?_eq_some hfirst)
    have hinside := h.inside (forall_mem_steps hwalk.edges e he)
    have hle : width ≤ x := by simpa using List.find?_some hfirst
    simp only [List.mem_cons, List.not_mem_nil, or_false] at hx
    omega

/-- What a function that tells the distances of a graph says of its paths, and of the exchanges that
routing inserts. -/
structure HasDistances (g : CouplingGraph) (dist : ℕ → ℕ → ℕ) : Prop where
  /-- A shortest path is found between any two qubits, with one qubit more than their distance. -/
  paths : ∀ a < g.qubits, ∀ b < g.qubits,
    ∃ path, g.shortestPath a b = some path ∧ path.length = dist a b + 1
  /-- Before each gate stand the exchanges of its detour, and they are all counted. -/
  exchanges : ∀ (width : ℕ) (gates : List (Gate Float)) (r : Routed Float),
    (∀ gate ∈ gates, gate.qubits.Nodup ∧ ∀ q ∈ gate.qubits, q < g.qubits) →
    g.route width gates = .ok r →
    r.swaps = (gates.map fun gate => detour dist gate.qubits).sum ∧
    ∃ chains, r.gates = interleave gates chains ∧
      List.Forall₂ (fun gate chain => chain.length = detour dist gate.qubits) gates chains
  /-- Routing succeeds in every register that has the qubits of the graph. -/
  routed : ∀ (width : ℕ) (gates : List (Gate Float)), g.qubits ≤ width →
    (∀ gate ∈ gates, gate.qubits.Nodup ∧ ∀ q ∈ gate.qubits, q < g.qubits) →
    ∃ r, g.route width gates = .ok r

theorem Tells.hasDistances (h : g.Tells dist) : g.HasDistances dist where
  paths a ha b hb := h.exists_shortestPath ha hb
  exchanges width gates r hgates hr := by
    obtain ⟨chains, hchains, hlist, -, hswaps⟩ :=
      route_counts (fun gate hgate => (hgates gate hgate).1) hr
    -- gate by gate, the chain is as long as the distance of its two qubits asks for
    have hlengths : List.Forall₂ (fun gate chain => chain.length = detour dist gate.qubits)
        gates chains := by
      have hinside := fun gate hgate => (hgates gate hgate).2
      exact ((List.forall₂_and_left gates chains).2 ⟨hinside, hchains⟩).imp
        fun _ _ hgate => h.length_of_accompanies hgate.1 hgate.2
    have hsame : chains.map List.length = gates.map fun gate => detour dist gate.qubits := by
      rw [← List.forall₂_eq_eq_eq, List.forall₂_map_left_iff, List.forall₂_map_right_iff]
      exact hlengths.flip
    exact ⟨hswaps.trans (congrArg List.sum hsame), chains, hlist, hlengths⟩
  -- nothing can hinder a gate: its qubits are joined, and a shortest path stays inside
  routed width gates hwidth hgates := by
    cases hroute : g.route width gates with
    | ok r => exact ⟨r, rfl⟩
    | error e =>
      obtain ⟨before, gate, after, rfl, -, hhinders⟩ :=
        (route_eq_error_iff fun gate hgate => (hgates gate hgate).1).1 hroute
      exact absurd hhinders (h.not_hinders hwidth (hgates gate (by simp)).2 e)

end Routing

/-! ## Chains and rings -/

theorem tells_chain (n : ℕ) : (chain n).Tells Nat.dist where
  inside h := by
    rw [qubits_chain]
    have hedge := connects_chain.1 h
    omega
  self := Nat.dist_self
  edge h _ := by
    have hedge := connects_chain.1 h
    simp only [Nat.dist]
    omega
  closer {a b} ha hb hab := by
    rw [qubits_chain] at ha hb ⊢
    simp only [connects_chain, Nat.dist]
    rcases Nat.lt_or_gt_of_ne hab with hlt | hlt
    · exact ⟨a + 1, by omega, by omega, by omega⟩
    · exact ⟨a - 1, by omega, by omega, by omega⟩

/-- The distance on a ring: the shorter way round, where there are two. -/
def ringDist (n a b : ℕ) : ℕ :=
  if n ≤ 2 then Nat.dist a b else min (Nat.dist a b) (n - Nat.dist a b)

theorem tells_ring (n : ℕ) : (ring n).Tells (ringDist n) := by
  by_cases hn : n ≤ 2
  · have hdist : ringDist n = Nat.dist := by
      funext a b
      exact if_pos hn
    rw [hdist, ring, if_neg (Nat.not_lt.2 hn)]
    exact tells_chain n
  · have hdist (a b : ℕ) : ringDist n a b = min (a - b + (b - a)) (n - (a - b + (b - a))) :=
      if_neg hn
    have hconnects {p q : ℕ} : (ring n).connects p q = true ↔
        (q = p + 1 ∧ q < n ∨ p = q + 1 ∧ p < n) ∨ p = n - 1 ∧ q = 0 ∨ p = 0 ∧ q = n - 1 := by
      rw [connects_ring (by omega), connects_chain]
    constructor
    case inside =>
      intro p q h
      rw [qubits_ring]
      have hedge := hconnects.1 h
      omega
    case self =>
      intro b
      rw [hdist]
      omega
    case edge =>
      intro p q b h hb
      rw [qubits_ring] at hb
      rw [hdist, hdist]
      have hedge := hconnects.1 h
      omega
    case closer =>
      intro a b ha hb hab
      rw [qubits_ring] at ha hb ⊢
      simp only [hconnects, hdist]
      -- the way up or down, whichever is shorter, past the ends of the chain
      by_cases hup : a < b ↔ a - b + (b - a) ≤ n - (a - b + (b - a))
      · by_cases hend : a + 1 = n
        · exact ⟨0, by omega, by omega, by omega⟩
        · exact ⟨a + 1, by omega, by omega, by omega⟩
      · by_cases hend : a = 0
        · exact ⟨n - 1, by omega, by omega, by omega⟩
        · exact ⟨a - 1, by omega, by omega, by omega⟩

/-! ## Lattices -/

/-- The distance on a lattice: along the rows and along the columns. -/
def latticeDist (cols a b : ℕ) : ℕ :=
  Nat.dist (a / cols) (b / cols) + Nat.dist (a % cols) (b % cols)

theorem latticeDist_place {cols row col row' col' : ℕ} (hcol : col < cols) (hcol' : col' < cols) :
    latticeDist cols (row * cols + col) (row' * cols + col') =
      Nat.dist row row' + Nat.dist col col' := by
  rw [latticeDist, row_place hcol, row_place hcol', col_place hcol, col_place hcol']

theorem tells_grid {rows cols : ℕ} (hsize : rows * cols < Index.limit) :
    (grid rows cols).Tells (latticeDist cols) where
  inside h := by
    rw [qubits_grid hsize]
    exact inside_grid hsize h
  self b := by rw [latticeDist, Nat.dist_self, Nat.dist_self]
  edge {p q b} h hb := by
    rw [qubits_grid hsize] at hb
    obtain ⟨hp, hq⟩ := inside_grid hsize h
    obtain ⟨row, hrow, col, hcol, rfl⟩ := exists_place hp
    obtain ⟨row', hrow', col', hcol', rfl⟩ := exists_place hq
    obtain ⟨r, -, c, hc, rfl⟩ := exists_place hb
    rw [connects_grid hsize hrow hcol hrow' hcol'] at h
    have hrows := Nat.dist.triangle_inequality row row' r
    have hcols := Nat.dist.triangle_inequality col col' c
    rw [latticeDist_place hcol hc, latticeDist_place hcol' hc]
    omega
  closer {a b} ha hb hab := by
    rw [qubits_grid hsize] at ha hb ⊢
    obtain ⟨row, hrow, col, hcol, rfl⟩ := exists_place ha
    obtain ⟨r, hr, c, hc, rfl⟩ := exists_place hb
    rw [Ne, place_inj hcol hc] at hab
    -- a place one step nearer is enough
    suffices hnear : ∃ row' < rows, ∃ col' < cols, Nat.dist row row' + Nat.dist col col' = 1 ∧
        Nat.dist row r + Nat.dist col c = Nat.dist row' r + Nat.dist col' c + 1 by
      obtain ⟨row', hrow', col', hcol', hstep, hlower⟩ := hnear
      exact ⟨_, place_lt hrow' hcol', (connects_grid hsize hrow hcol hrow' hcol').2 hstep,
        by rwa [latticeDist_place hcol hc, latticeDist_place hcol' hc]⟩
    simp only [Nat.dist]
    rcases Nat.lt_trichotomy row r with hlt | rfl | hlt
    · exact ⟨row + 1, by omega, col, hcol, by omega, by omega⟩
    · rcases Nat.lt_or_gt_of_ne fun h => hab ⟨rfl, h⟩ with hlt | hlt
      · exact ⟨row, hrow, col + 1, by omega, by omega, by omega⟩
      · exact ⟨row, hrow, col - 1, by omega, by omega, by omega⟩
    · exact ⟨row - 1, by omega, col, hcol, by omega, by omega⟩

/-! ## Complete graphs -/

theorem tells_complete (n : ℕ) : (complete n).Tells fun a b => if a = b then 0 else 1 where
  inside h := by
    rw [qubits_complete]
    exact (connects_complete.1 h).2
  self _ := if_pos rfl
  edge _ _ := by
    split
    · exact Nat.zero_le _
    · exact Nat.le_add_left 1 _
  closer {a b} ha hb hab := by
    rw [qubits_complete] at ha hb ⊢
    exact ⟨b, hb, connects_complete.2 ⟨hab, ha, hb⟩, by rw [if_neg hab, if_pos rfl]⟩

/-! ## All topologies -/

/-- **Distances on the topologies**. On a chain two qubits are as far apart as their indices, on a
ring the shorter way round, on a lattice by the rows and the columns between them, and on a complete
graph one step. Shortest paths have these lengths, and routing puts one exchange less before every
gate on two qubits. The qubits of a lattice have to be indices. -/
theorem topologies_have_distances :
    (∀ n, (chain n).qubits = n ∧ (chain n).HasDistances Nat.dist) ∧
    (∀ n, (ring n).qubits = n ∧ (ring n).HasDistances (ringDist n)) ∧
    (∀ rows cols, rows * cols < Index.limit → (grid rows cols).qubits = rows * cols ∧
      (grid rows cols).HasDistances (latticeDist cols)) ∧
    ∀ n, (complete n).qubits = n ∧ (complete n).HasDistances fun a b => if a = b then 0 else 1 :=
  ⟨fun n => ⟨qubits_chain n, (tells_chain n).hasDistances⟩,
    fun n => ⟨qubits_ring n, (tells_ring n).hasDistances⟩,
    fun _ _ hsize => ⟨qubits_grid hsize, (tells_grid hsize).hasDistances⟩,
    fun n => ⟨qubits_complete n, (tells_complete n).hasDistances⟩⟩

/-- A gate from corner to corner of a lattice of three rows and four columns. -/
def corners : List (Gate Float) := [.plain .h [0], .plain .cnot [0, 11]]

theorem topologies_have_distances_corners :
    3 * 4 < Index.limit ∧
    (∃ path, (grid 3 4).shortestPath 0 11 = some path ∧ path.length = 6) ∧
    ∃ r, (grid 3 4).route 12 corners = .ok r ∧ r.swaps = 4 := by
  have hsize : 3 * 4 < Index.limit := by decide
  obtain ⟨hqubits, hlattice⟩ := topologies_have_distances.2.2.1 3 4 hsize
  have hgates : ∀ gate ∈ corners,
      gate.qubits.Nodup ∧ ∀ q ∈ gate.qubits, q < (grid 3 4).qubits := by
    rw [hqubits]
    decide
  obtain ⟨r, hr⟩ := hlattice.routed 12 _ hqubits.le hgates
  exact ⟨hsize, hlattice.paths 0 (by rw [hqubits]; decide) 11 (by rw [hqubits]; decide), r, hr,
    (hlattice.exchanges 12 _ r hgates hr).1⟩

end QuantumWorkbench.CouplingGraph
