import Mathlib
import QuantumWorkbench.Proofs.Double.Exact
import QuantumWorkbench.Proofs.Problem.Coloring
import QuantumWorkbench.Proofs.Problem.Cut

/-!
# Widths of encodings

The width of a register is computed from the data before anything is encoded, and each family then
computes its own indices. Here the number of variables that data needs is said without any reference
to words. A register is granted exactly where this number and the numbers on the way to it are
indices and the register is not too wide, and then the encoding has exactly so many variables.
-/

namespace QuantumWorkbench

open Qubo

/-! ## Numbers of variables -/

namespace ProblemData

variable {α : Type}

/-- The size that data declares. -/
def declared : ProblemData α → ℕ
  | maxCut vertices _ | vertexCover vertices _ | graphColoring vertices _ _ => vertices
  | tsp cities _ => cities
  | portfolio returns .. => returns.length
  | knapsack weights .. => weights.length
  | sat width _ => width
  | genericQubo qubo => qubo.declared

/-- The indices that data mentions: the higher end of each edge, the variable of each literal, and
the higher variable of each entry. -/
def indices : ProblemData α → List ℕ
  | maxCut _ edges => (ends edges).map fun e => max e.1 e.2
  | vertexCover _ edges | graphColoring _ edges _ => edges.map fun e => max e.1 e.2
  | sat _ clauses => clauses.flatten.map Literal.index
  | genericQubo qubo => qubo.terms.keys.map Prod.snd
  | tsp .. | portfolio .. | knapsack .. => []

/-- The size that data declares, raised to cover the indices that it mentions. -/
def span (data : ProblemData α) : ℕ := (data.indices.map (· + 1)).foldl max data.declared

/-- The number of variables that data needs: a square for tours, a product for colourings. -/
def need (data : ProblemData α) : ℕ :=
  match data with
  | tsp cities _ => cities * cities
  | graphColoring _ _ colors => data.span * colors
  | _ => data.span

/-- The counts that make the number of variables, and that number itself. -/
def counts (data : ProblemData α) : List ℕ := data.indices.map (· + 1) ++ [data.need]

theorem declared_le_span (data : ProblemData α) : data.declared ≤ data.span :=
  (foldl_max_le_iff.1 le_rfl).1

theorem lt_span (data : ProblemData α) {i : ℕ} (hi : i ∈ data.indices) : i < data.span :=
  (foldl_max_le_iff.1 (le_refl data.span)).2 (i + 1) (List.mem_map_of_mem hi)

theorem foldl_max_mem (xs : List ℕ) (n : ℕ) : xs.foldl max n = n ∨ xs.foldl max n ∈ xs := by
  induction xs generalizing n with
  | nil => exact .inl rfl
  | cons x xs ih =>
    rw [List.foldl_cons, List.mem_cons]
    rcases ih (max n x) with hstart | hlater
    · rcases max_choice n x with hn | hx
      · exact .inl (hstart.trans hn)
      · exact .inr (.inl (hstart.trans hx))
    · exact .inr (.inr hlater)

/-- The span is declared or reached. -/
theorem span_eq (data : ProblemData α) :
    data.span = data.declared ∨ ∃ i ∈ data.indices, data.span = i + 1 := by
  rcases foldl_max_mem (data.indices.map (· + 1)) data.declared with h | h
  · exact .inl h
  · obtain ⟨i, hi, heq⟩ := List.mem_map.1 h
    exact .inr ⟨i, hi, heq.symm⟩

end ProblemData

/-! ## Widths of objectives -/

namespace Qubo

variable {α : Type} [Scalar α] {declared n : ℕ}

theorem ofTerms_append (declared : ℕ) (terms terms' : List (ℕ × ℕ × α)) :
    ofTerms declared (terms ++ terms') = (ofTerms declared terms).addTerms terms' := by
  simp only [ofTerms, addTerms_eq_foldl, List.foldl_append]

/-- What a number of variables comes to: an objective that can be built, of exactly that width. -/
structure HasWidth (n : ℕ) (q : Qubo α) : Prop where
  built : q.Built
  width : q.width = n

/-- **The width of a list of terms** is a number that it stays below, where that number is declared
or reached. -/
theorem hasWidth_ofTerms {terms : List (ℕ × ℕ × α)} (hn : n < Index.limit - 1)
    (hterms : ∀ t ∈ terms, t.1 < n ∧ t.2.1 < n)
    (hreach : declared = n ∨ declared ≤ n ∧ ∃ t ∈ terms, n = max t.1 t.2.1 + 1) :
    (ofTerms declared terms).HasWidth n := by
  refine ⟨built_ofTerms declared terms, ?_⟩
  have hdeclared : declared ≤ n := hreach.elim le_of_eq And.left
  -- the entries do not depend on the number that is declared
  have hentries : (ofTerms n terms).IsDeclared := isDeclared_ofTerms hterms
  have hle : (ofTerms declared terms).width ≤ n := width_le_iff.2 ⟨hdeclared, fun e he =>
    (min_le_left _ _).trans (hentries e he).2⟩
  refine le_antisymm hle ?_
  rcases hreach with rfl | ⟨-, t, ht, rfl⟩
  · exact declared_le_width (ofTerms declared terms)
  · exact Nat.succ_le_of_lt (max_lt_iff.2 (lt_of_width_ofTerms_le le_rfl (hle.trans_lt hn) ht))

/-- **Entries of an objective** name the lower variable first, and the higher one lies below the
width. -/
theorem HasWidth.mem_keys {q : Qubo α} (hq : q.HasWidth n) (hn : n < Index.limit - 1) {k : ℕ × ℕ}
    (hk : k ∈ q.terms.keys) : k.1 ≤ k.2 ∧ k.2 < n := by
  obtain ⟨e, he, rfl⟩ := List.mem_map.1 hk
  exact ⟨hq.built.ordered e he, (lt_of_width_le hq.built hq.width.le hn he).2⟩

end Qubo

namespace Encoding

open ProblemData

variable {α : Type} [Scalar α]

/-! ## Widths of the families -/

/-- Terms that stay below the span of data and reach its indices have the span as their width. -/
theorem hasWidth_span (data : ProblemData α) (hn : data.span < Index.limit - 1)
    {terms : List (ℕ × ℕ × α)} (hterms : ∀ t ∈ terms, t.1 < data.span ∧ t.2.1 < data.span)
    (hindices : ∀ i ∈ data.indices, ∃ t ∈ terms, i = max t.1 t.2.1) :
    (ofTerms data.declared terms).HasWidth data.span := by
  refine hasWidth_ofTerms hn hterms ?_
  rcases data.span_eq with h | ⟨i, hi, h⟩
  · exact .inl h.symm
  · obtain ⟨t, ht, rfl⟩ := hindices i hi
    exact .inr ⟨data.declared_le_span, t, ht, h⟩

theorem hasWidth_maxCut {vertices : ℕ} {edges : List (WeightedEdge α)}
    (hn : (ProblemData.maxCut vertices edges).span < Index.limit - 1) :
    (maxCut vertices edges).qubo.HasWidth (ProblemData.maxCut vertices edges).span := by
  refine hasWidth_span (.maxCut vertices edges) hn (fun t ht => ?_) fun i hi => ?_
  · obtain ⟨e, he, ht⟩ := List.mem_flatMap.1 ht
    obtain ⟨hu, hv⟩ := max_lt_iff.1 (lt_span (.maxCut vertices edges)
      (List.mem_map_of_mem (f := fun e : ℕ × ℕ => max e.1 e.2) (List.mem_map_of_mem he)))
    simp only [cutTerms, List.mem_cons, List.not_mem_nil, or_false] at ht
    rcases ht with rfl | rfl | rfl
    exacts [⟨hu, hu⟩, ⟨hv, hv⟩, ⟨hu, hv⟩]
  · obtain ⟨ends, hends, rfl⟩ := List.mem_map.1 hi
    obtain ⟨e, he, rfl⟩ := List.mem_map.1 hends
    exact ⟨(e.u, e.v, -Scalar.two * e.weight),
      List.mem_flatMap.2 ⟨e, he, by simp [cutTerms]⟩, rfl⟩

theorem hasWidth_vertexCover {vertices : ℕ} {edges : List (ℕ × ℕ)}
    (hn : (ProblemData.vertexCover vertices edges : ProblemData α).span < Index.limit - 1) :
    (vertexCover vertices edges : Encoding α).qubo.HasWidth
      (ProblemData.vertexCover vertices edges : ProblemData α).span := by
  let data : ProblemData α := .vertexCover vertices edges
  show ((Qubo.uniform vertices 1).addTerms _).HasWidth data.span
  rw [uniform_eq_ofTerms, ← ofTerms_append]
  refine hasWidth_span data hn (fun t ht => ?_) fun i hi => ?_
  · rcases List.mem_append.1 ht with ht | ht
    · obtain ⟨v, hv, rfl⟩ := List.mem_map.1 ht
      have hlt := (List.mem_range.1 hv).trans_le data.declared_le_span
      exact ⟨hlt, hlt⟩
    · obtain ⟨e, he, ht⟩ := List.mem_flatMap.1 ht
      obtain ⟨hu, hv⟩ := max_lt_iff.1 (data.lt_span (List.mem_map_of_mem he))
      simp only [List.mem_cons, List.not_mem_nil, or_false] at ht
      rcases ht with rfl | rfl | rfl
      exacts [⟨hu, hu⟩, ⟨hv, hv⟩, ⟨hu, hv⟩]
  · obtain ⟨e, he, rfl⟩ := List.mem_map.1 hi
    exact ⟨(e.1, e.2, -Scalar.two * (Scalar.num 10 * Scalar.num vertices)),
      List.mem_append_right _ (List.mem_flatMap.2 ⟨e, he, by simp⟩), rfl⟩

theorem hasWidth_sat {width : ℕ} {clauses : List (List Literal)}
    (hn : (ProblemData.sat width clauses : ProblemData α).span < Index.limit - 1) :
    (sat width clauses : Encoding α).qubo.HasWidth
      (ProblemData.sat width clauses : ProblemData α).span := by
  let data : ProblemData α := .sat width clauses
  refine hasWidth_span data hn (fun t ht => ?_) fun i hi => ?_
  · obtain ⟨l, hl, rfl⟩ := List.mem_map.1 ht
    have hlt := data.lt_span (List.mem_map_of_mem hl)
    exact ⟨hlt, hlt⟩
  · obtain ⟨l, hl, rfl⟩ := List.mem_map.1 hi
    exact ⟨_, List.mem_map_of_mem hl, (max_self _).symm⟩

theorem hasWidth_portfolio (returns : List α) (covariance : List (List α)) (riskAversion : α)
    (budget : Option α) (hn : returns.length < Index.limit - 1) :
    (portfolio returns covariance riskAversion budget).qubo.HasWidth returns.length := by
  have hqubo : (portfolio returns covariance riskAversion budget).qubo =
      ofTerms returns.length ((returns.zipIdx.map fun e => (e.2, e.2, -e.1)) ++
        (matrixTerms returns.length covariance).map fun entry =>
          (entry.1, entry.2.1, riskAversion * entry.2.2)) := by
    rw [ofTerms_append]
    cases budget <;> rfl
  rw [hqubo]
  refine hasWidth_ofTerms hn (fun t ht => ?_) (.inl rfl)
  rcases List.mem_append.1 ht with ht | ht
  · obtain ⟨e, he, rfl⟩ := List.mem_map.1 ht
    have hlt := List.snd_lt_of_mem_zipIdx he
    exact ⟨hlt, hlt⟩
  · obtain ⟨entry, hentry, rfl⟩ := List.mem_map.1 ht
    obtain ⟨row, hrow, hentry⟩ := List.mem_flatMap.1 hentry
    obtain ⟨column, hcolumn, rfl⟩ := List.mem_map.1 hentry
    exact ⟨(List.snd_lt_of_mem_zipIdx hrow).trans_le (List.length_take_le _ _),
      (List.snd_lt_of_mem_zipIdx hcolumn).trans_le (List.length_take_le _ _)⟩

theorem hasWidth_knapsack (weights values : List α) (capacity : α)
    (hn : weights.length < Index.limit - 1) :
    (knapsack weights values capacity).qubo.HasWidth weights.length := by
  have hitem : ∀ {e : α × ℕ}, e ∈ weights.zipIdx → e.2 < weights.length := fun he =>
    List.snd_lt_of_mem_zipIdx he
  show (((ofTerms weights.length _).addTerms _).addTerms _).HasWidth weights.length
  rw [← ofTerms_append, ← ofTerms_append]
  refine hasWidth_ofTerms hn (fun t ht => ?_) (.inl rfl)
  rcases List.mem_append.1 ht with ht | ht
  · rcases List.mem_append.1 ht with ht | ht
    · obtain ⟨e, he, rfl⟩ := List.mem_map.1 ht
      have hlt := (List.snd_lt_of_mem_zipIdx he).trans_le (List.length_take_le _ _)
      exact ⟨hlt, hlt⟩
    · obtain ⟨e, he, ht⟩ := List.mem_flatMap.1 ht
      obtain ⟨e', he', rfl⟩ := List.mem_map.1 ht
      exact ⟨hitem he, hitem he'⟩
  · obtain ⟨e, he, rfl⟩ := List.mem_map.1 ht
    exact ⟨hitem he, hitem he⟩

theorem hasWidth_tsp {cities : ℕ} (hn : cities * cities < Index.limit - 1) :
    (tsp cities : Encoding α).qubo.HasWidth (cities * cities) := by
  show (ofTerms (cities * cities) []).HasWidth (cities * cities)
  exact hasWidth_ofTerms hn (fun _ ht => absurd ht List.not_mem_nil) (.inl rfl)

theorem hasWidth_graphColoring {vertices colors : ℕ} {edges : List (ℕ × ℕ)}
    (hn : (ProblemData.graphColoring vertices edges colors : ProblemData α).need <
      Index.limit - 1) :
    (graphColoring (ProblemData.graphColoring vertices edges colors : ProblemData α).need vertices
      edges colors : Encoding α).qubo.HasWidth
        (ProblemData.graphColoring vertices edges colors : ProblemData α).need := by
  let data : ProblemData α := .graphColoring vertices edges colors
  show ((ofTerms data.need _).addTerms _).HasWidth data.need
  rw [← ofTerms_append]
  refine hasWidth_ofTerms hn (fun t ht => ?_) (.inl rfl)
  rcases List.mem_append.1 ht with ht | ht
  · obtain ⟨v, hv, ht⟩ := List.mem_flatMap.1 ht
    have hvertices : (if colors = 0 then 0 else vertices) ≤ data.span := by
      split
      · exact Nat.zero_le _
      · exact data.declared_le_span
    exact lt_of_mem_vertexTerms ((List.mem_range.1 hv).trans_le hvertices) ht
  · obtain ⟨e, he, ht⟩ := List.mem_flatMap.1 ht
    have hends := max_lt_iff.1 (data.lt_span (List.mem_map_of_mem he))
    exact lt_of_mem_edgeTerms hends ht

/-- An objective whose entries have next indices is as wide as its span. -/
theorem hasWidth_genericQubo {qubo : Qubo α} (hqubo : qubo.Built)
    (hindices : ∀ i ∈ (ProblemData.genericQubo qubo).indices, i + 1 < Index.limit) :
    qubo.HasWidth (ProblemData.genericQubo qubo).span := by
  refine ⟨hqubo, ?_⟩
  have hnext : (qubo.terms.entries.map fun e => Index.nextClamped e.1.2) =
      (ProblemData.genericQubo qubo).indices.map (· + 1) := by
    rw [ProblemData.indices, SortedMap.keys, List.map_map, List.map_map]
    refine List.map_congr_left fun e he => ?_
    have hlt := hindices e.1.2 (List.mem_map_of_mem (f := Prod.snd) (List.mem_map_of_mem he))
    exact min_eq_left (Nat.le_pred_of_lt hlt)
  rw [ProblemData.span, ← hnext, List.foldl_map]
  rfl

/-- **An encoding has the width that was computed for it**, whatever the family. -/
theorem hasWidth_ofData {data : ProblemData α}
    (hbuilt : ∀ qubo, data = .genericQubo qubo → qubo.Built)
    (hindices : ∀ i ∈ data.indices, i + 1 < Index.limit) (hneed : data.need < Index.limit - 1) :
    (ofData data.need data).qubo.HasWidth data.need := by
  cases data with
  | maxCut => exact hasWidth_maxCut hneed
  | tsp => exact hasWidth_tsp hneed
  | portfolio => exact hasWidth_portfolio _ _ _ _ hneed
  | knapsack => exact hasWidth_knapsack _ _ _ hneed
  | vertexCover => exact hasWidth_vertexCover hneed
  | graphColoring => exact hasWidth_graphColoring hneed
  | sat => exact hasWidth_sat hneed
  | genericQubo qubo => exact hasWidth_genericQubo (hbuilt qubo rfl) hindices

/-! ## Granted registers -/

/-- Successors are taken one after another as long as they are indices. -/
theorem foldlM_next? (is : List ℕ) (n : ℕ) :
    is.foldlM (fun width i => (Index.next? i).map (max width)) n =
      if ∀ i ∈ is, i + 1 < Index.limit then some ((is.map (· + 1)).foldl max n) else none := by
  induction is generalizing n with
  | nil => rfl
  | cons i is ih =>
    rw [List.foldlM_cons, Index.next?, Index.checked?]
    by_cases hi : i + 1 < Index.limit
    · rw [if_pos hi]
      simp only [List.forall_mem_cons, hi, true_and]
      exact ih (max n (i + 1))
    · rw [if_neg hi]
      simp only [List.forall_mem_cons, hi, false_and, if_false]
      rfl

theorem foldlM_next?_eq_some_iff (is : List ℕ) {n width : ℕ} :
    is.foldlM (fun width i => (Index.next? i).map (max width)) n = some width ↔
      (∀ i ∈ is, i + 1 < Index.limit) ∧ (is.map (· + 1)).foldl max n = width := by
  rw [foldlM_next?, Option.ite_none_right_eq_some, Option.some.injEq]

omit [Scalar α] in
/-- A width that is granted is the number of variables that data needs. -/
theorem registerWidth?_eq_some_iff {data : ProblemData α} {width : ℕ}
    (hwidth : width ≤ maxVariables) : registerWidth? data = some width ↔
      (∀ i ∈ data.indices, i + 1 < Index.limit) ∧ data.need = width := by
  have hlimit : width < Index.limit := hwidth.trans_lt (by decide)
  -- a product that is granted is an index
  have hproduct : ∀ a b, Index.mul? a b = some width ↔ a * b = width := fun a b => by
    rw [Index.mul?, Index.checked?, Option.ite_none_right_eq_some, Option.some.injEq]
    exact ⟨And.right, fun h => ⟨h ▸ hlimit, h⟩⟩
  have hcovering : ∀ vertices edges n, coveringWidth? vertices edges = some n ↔
      (∀ i ∈ edges.map fun e => max e.1 e.2, i + 1 < Index.limit) ∧
        ((edges.map fun e => max e.1 e.2).map (· + 1)).foldl max vertices = n :=
    fun vertices edges n => by
      rw [← foldlM_next?_eq_some_iff, List.foldlM_map, coveringWidth?]
  cases data with
  | maxCut vertices edges => exact hcovering vertices (ends edges) width
  | vertexCover vertices edges => exact hcovering vertices edges width
  | sat count clauses =>
    exact Iff.trans (by rw [registerWidth?, List.foldlM_map])
      (foldlM_next?_eq_some_iff (clauses.flatten.map Literal.index) (n := count))
  | genericQubo qubo =>
    exact Iff.trans (by rw [registerWidth?, List.foldlM_map])
      (foldlM_next?_eq_some_iff (qubo.terms.keys.map Prod.snd) (n := qubo.declared))
  | graphColoring vertices edges colors =>
    rw [registerWidth?, Option.bind_eq_some_iff]
    constructor
    · rintro ⟨span, hspan, hwidth⟩
      obtain ⟨hindices, rfl⟩ := (hcovering vertices edges span).1 hspan
      exact ⟨hindices, (hproduct _ _).1 hwidth⟩
    · rintro ⟨hindices, hneed⟩
      exact ⟨_, (hcovering vertices edges _).2 ⟨hindices, rfl⟩, (hproduct _ _).2 hneed⟩
  | tsp cities =>
    rw [registerWidth?, hproduct]
    exact (and_iff_right fun _ hi => absurd hi List.not_mem_nil).symm
  | portfolio | knapsack =>
    rw [registerWidth?, Option.some.injEq]
    exact (and_iff_right fun _ hi => absurd hi List.not_mem_nil).symm

theorem ofData?_eq_some_iff {data : ProblemData α} {e : Encoding α} : ofData? data = some e ↔
    (∀ i ∈ data.indices, i + 1 < Index.limit) ∧ data.need ≤ maxVariables ∧
      ofData data.need data = e := by
  rw [ofData?, Option.bind_eq_some_iff]
  constructor
  · rintro ⟨width, hgranted, he⟩
    rw [Option.ite_none_left_eq_some, not_lt, Option.some.injEq] at he
    obtain ⟨hindices, rfl⟩ := (registerWidth?_eq_some_iff he.1).1 hgranted
    exact ⟨hindices, he.1, he.2⟩
  · rintro ⟨hindices, hneed, rfl⟩
    exact ⟨_, (registerWidth?_eq_some_iff hneed).2 ⟨hindices, rfl⟩, if_neg (not_lt.2 hneed)⟩

/-! ## What else tells the width -/

/-- The key under which the number of variables is recorded is not used for anything else. -/
theorem numVariables_ofData (width : ℕ) (data : ProblemData α) :
    (ofData width data).metadata.get? "num_variables" =
      some (Scalar.num (ofData width data).qubo.width) := by
  have hofQubo : ∀ (qubo : Qubo α) (s : String),
      (ofQubo qubo s).metadata.get? "num_variables" = some (Scalar.num qubo.width) :=
    fun qubo s => by
      rw [ofQubo, SortedMap.ofList_eq_foldl]
      exact SortedMap.get?_insert_self _ _ _
  have hrecord : ∀ (e : Encoding α) (key : String) (x : α), "num_variables" ≠ key →
      (e.record key x).metadata.get? "num_variables" = e.metadata.get? "num_variables" :=
    fun e key x h => SortedMap.get?_insert_of_ne _ h x
  cases data with
  | maxCut => exact hofQubo _ "x_i = 1 places vertex i in the second partition"
  | genericQubo => exact hofQubo _ _
  | tsp =>
    exact (hrecord _ _ _ (by decide)).trans ((hrecord _ _ _ (by decide)).trans (hofQubo _ _))
  | graphColoring =>
    exact (hrecord _ _ _ (by decide)).trans ((hrecord _ _ _ (by decide)).trans (hofQubo _ _))
  | vertexCover | sat => exact (hrecord _ _ _ (by decide)).trans (hofQubo _ _)
  | knapsack =>
    exact (hrecord _ _ _ (by decide)).trans ((hrecord _ _ _ (by decide)).trans
      ((hrecord _ _ _ (by decide)).trans (hofQubo _ _)))
  | portfolio _ _ _ budget =>
    cases budget with
    | none => exact (hrecord _ _ _ (by decide)).trans (hofQubo _ _)
    | some =>
      exact (hrecord _ _ _ (by decide)).trans ((hrecord _ _ _ (by decide)).trans (hofQubo _ _))

theorem spins_ofData {width : ℕ} {data : ProblemData α} {m : SpinModel α}
    (hm : (ofData width data).spins = some m) : m.spins = (ofData width data).qubo.width := by
  cases data with
  | maxCut vertices edges =>
    obtain rfl := Option.some.inj hm
    exact SpinModel.spins_resize _ _
  | portfolio _ _ _ budget => cases budget <;> cases hm
  | tsp | knapsack | vertexCover | graphColoring | sat | genericQubo => cases hm

/-! ## Index arithmetic -/

/-- The variable of a vertex and a colour, where neither the product nor the sum leaves the indices.
-/
def colorVariable? (colors vertex color : ℕ) : Option ℕ :=
  (Index.mul? vertex colors).bind fun base => Index.checked? (base + color)

/-- The terms of one vertex and one colour, with the pairs of that colour and a later one. -/
def colorTerms? (colors : ℕ) (penalty : α) (vertex color : ℕ) : Option (List (ℕ × ℕ × α)) := do
  let var ← colorVariable? colors vertex color
  let next ← Index.next? color
  let pairs ← (List.range' next (colors - next)).mapM fun color' =>
    (colorVariable? colors vertex color').map fun var' => (var, var', penalty)
  return (var, var, -penalty) :: pairs

/-- The terms of one vertex, in arithmetic that does not leave the indices. -/
def vertexTerms? (colors : ℕ) (penalty : α) (vertex : ℕ) : Option (List (ℕ × ℕ × α)) :=
  ((List.range colors).mapM (colorTerms? colors penalty vertex)).map List.flatten

/-- The terms of one edge, in arithmetic that does not leave the indices. -/
def edgeTerms? (colors : ℕ) (penalty : α) (edge : ℕ × ℕ) : Option (List (ℕ × ℕ × α)) :=
  (List.range colors).mapM fun c => do
    let first ← colorVariable? colors edge.1 c
    let second ← colorVariable? colors edge.2 c
    return (first, second, penalty)

/-- A colouring problem, in arithmetic that does not leave the indices. -/
def graphColoring? (width vertices : ℕ) (edges : List (ℕ × ℕ)) (colors : ℕ) :
    Option (Encoding α) := do
  let penalty : α := Scalar.num 10 * Scalar.num vertices * Scalar.num colors
  let colored := if colors = 0 then 0 else vertices
  let rewards ← (List.range colored).mapM (vertexTerms? colors penalty)
  let clashes ← edges.mapM (edgeTerms? colors penalty)
  let e := ofQubo ((Qubo.ofTerms width rewards.flatten).addTerms clashes.flatten)
    "x[v * k + c] = 1 gives vertex v colour c"
  return (e.record penaltyKey penalty).record "num_colors" (Scalar.num colors)

/-- Encodes data on a register of the given width, in arithmetic that does not leave the indices.
Only tours and colourings compute with indices. -/
def ofDataChecked? (width : ℕ) : ProblemData α → Option (Encoding α)
  | .tsp cities _ => (Index.mul? cities cities).map fun _ => tsp cities
  | .graphColoring vertices edges colors => graphColoring? width vertices edges colors
  | data => some (ofData width data)

/-- Encodes data whose register is not too wide, in arithmetic that does not leave the indices;
where it would, there is no answer. -/
def checked? (data : ProblemData α) : Option (Option (Encoding α)) :=
  match registerWidth? data with
  | none => some none
  | some width =>
    if maxVariables < width then some none else (ofDataChecked? width data).map some

/-- Steps that all succeed give the list of what they return. -/
theorem mapM_eq_some_map {β γ : Type} {f : β → Option γ} {g : β → γ} {bs : List β}
    (h : ∀ b ∈ bs, f b = some (g b)) : bs.mapM f = some (bs.map g) := by
  induction bs with
  | nil => rfl
  | cons b bs ih =>
    obtain ⟨hb, hbs⟩ := List.forall_mem_cons.1 h
    rw [List.mapM_cons, hb, ih hbs]
    rfl

theorem colorVariable?_eq {colors vertex color : ℕ}
    (h : colorVariable colors vertex color < Index.limit) :
    colorVariable? colors vertex color = some (colorVariable colors vertex color) := by
  have hproduct : vertex * colors < Index.limit := (Nat.le_add_right _ _).trans_lt h
  rw [colorVariable?, Index.mul?, Index.checked?, if_pos hproduct, Option.bind_some,
    Index.checked?]
  exact if_pos h

section

variable {vertices colors : ℕ} (hlimit : vertices * colors < Index.limit)
include hlimit

theorem vertexTerms?_eq {vertex : ℕ} (hvertex : vertex < vertices) (penalty : α) :
    vertexTerms? colors penalty vertex = some (vertexTerms colors penalty vertex) := by
  have hvar : ∀ {c}, c < colors →
      colorVariable? colors vertex c = some (colorVariable colors vertex c) := fun hc =>
    colorVariable?_eq ((colorVariable_lt hvertex hc).trans hlimit)
  have hterms : ∀ c ∈ List.range colors, colorTerms? colors penalty vertex c =
      some ((colorVariable colors vertex c, colorVariable colors vertex c, -penalty) ::
        (List.range' (c + 1) (colors - (c + 1))).map fun c' =>
          (colorVariable colors vertex c, colorVariable colors vertex c', penalty)) := by
    intro c hc
    have hcolor := List.mem_range.1 hc
    -- there is a vertex, so the successor of a colour is at most the number of variables
    have hle : colors ≤ vertices * colors := Nat.le_mul_of_pos_left colors (by omega)
    have hnext : Index.next? c = some (c + 1) := by
      rw [Index.next?, Index.checked?, if_pos (by omega)]
    rw [colorTerms?, hvar hcolor, hnext]
    simp only [Option.bind_eq_bind, Option.bind_some]
    rw [mapM_eq_some_map (g := fun c' =>
      (colorVariable colors vertex c, colorVariable colors vertex c', penalty))]
    · rfl
    · intro c' hc'
      rw [List.mem_range'_1] at hc'
      rw [hvar (by omega), Option.map_some]
  rw [vertexTerms?, mapM_eq_some_map hterms, Option.map_some, ← List.flatMap_def, vertexTerms]

omit [Scalar α] in
theorem edgeTerms?_eq {edge : ℕ × ℕ} (hedge : edge.1 < vertices ∧ edge.2 < vertices) (penalty : α) :
    edgeTerms? colors penalty edge = some (edgeTerms colors penalty edge) := by
  refine mapM_eq_some_map fun c hc => ?_
  have hvar : ∀ {v}, v < vertices →
      colorVariable? colors v c = some (colorVariable colors v c) := fun hv =>
    colorVariable?_eq ((colorVariable_lt hv (List.mem_range.1 hc)).trans hlimit)
  rw [hvar hedge.1, hvar hedge.2]
  rfl

end

theorem ofDataChecked?_eq {data : ProblemData α} (hneed : data.need < Index.limit) :
    ofDataChecked? data.need data = some (ofData data.need data) := by
  cases data with
  | tsp cities =>
    have hcities : cities * cities < Index.limit := hneed
    rw [ofDataChecked?, Index.mul?, Index.checked?, if_pos hcities]
    rfl
  | graphColoring vertices edges colors =>
    let data : ProblemData α := .graphColoring vertices edges colors
    -- without colors no vertex is looked at
    have hvertices : (if colors = 0 then 0 else vertices) ≤ data.span := by
      split
      · exact Nat.zero_le _
      · exact data.declared_le_span
    have hrewards := fun penalty : α => mapM_eq_some_map fun v hv =>
      vertexTerms?_eq hneed ((List.mem_range.1 hv).trans_le hvertices) penalty
    have hclashes := fun penalty : α => mapM_eq_some_map fun e he =>
      edgeTerms?_eq hneed (max_lt_iff.1 (data.lt_span (List.mem_map_of_mem he))) penalty
    rw [ofDataChecked?, graphColoring?, hrewards, Option.bind_eq_bind, Option.bind_some, hclashes,
      Option.bind_some, ← List.flatMap_def, ← List.flatMap_def]
    rfl
  | maxCut | portfolio | knapsack | vertexCover | sat | genericQubo => rfl

/-- **No index arithmetic leaves the indices**: with every product, sum and successor checked, there
is always an answer, and it is the same. -/
theorem checked?_eq (data : ProblemData α) : checked? data = some (ofData? data) := by
  rw [checked?, ofData?]
  cases hgranted : registerWidth? data with
  | none => rfl
  | some width =>
    rw [Option.bind_some]
    -- only a width that is granted is encoded, so the bound on registers bounds all indices
    by_cases hwidth : maxVariables < width
    · exact (if_pos hwidth).trans (congrArg some (if_pos hwidth).symm)
    · obtain ⟨-, rfl⟩ := (registerWidth?_eq_some_iff (not_lt.1 hwidth)).1 hgranted
      have hlimit : data.need < Index.limit := (not_lt.1 hwidth).trans_lt (by decide)
      show (if maxVariables < data.need then some none
        else (ofDataChecked? data.need data).map some) = _
      rw [if_neg hwidth, if_neg hwidth, ofDataChecked?_eq hlimit]
      rfl

/-! ## Exactness -/

/-- **Encoding is total and its width exact.** Data is encoded exactly where every count that it
needs is an index and its number of variables is not beyond the widest register. The encoding then
has that many variables: its entries name the lower variable first and stay below, its spin model
has a spin for each, and the recorded number is theirs, which a double holds exactly. None of the
arithmetic on the way leaves the indices. Objectives of the caller's own are built by additions,
like all others. -/
theorem ofData?_exact (data : ProblemData α)
    (hbuilt : ∀ qubo, data = .genericQubo qubo → qubo.Built) :
    ((ofData? data).isSome = true ↔
      (∀ count ∈ data.counts, count < Index.limit) ∧ data.need ≤ maxVariables) ∧
    (∀ e, ofData? data = some e →
      e.qubo.width = data.need ∧
      (∀ k ∈ e.qubo.terms.keys, k.1 ≤ k.2 ∧ k.2 < data.need) ∧
      (∀ m, e.spins = some m → m.spins = data.need) ∧
      e.metadata.get? "num_variables" = some (Scalar.num data.need)) ∧
    (∀ width ≤ maxVariables, Double.value (Scalar.num width) = width) ∧
    checked? data = some (ofData? data) := by
  have hlimit : maxVariables < Index.limit - 1 := by decide
  have hdouble : maxVariables < 2 ^ 53 := by decide
  refine ⟨?granted, fun e he => ?_, fun width hwidth => Double.value_ofNat (by omega),
    checked?_eq data⟩
  case granted =>
    simp only [Option.isSome_iff_exists, ofData?_eq_some_iff, counts, List.forall_mem_append,
      List.forall_mem_map, List.forall_mem_singleton]
    constructor
    · rintro ⟨e, hindices, hneed, -⟩
      exact ⟨⟨hindices, by omega⟩, hneed⟩
    · rintro ⟨⟨hindices, -⟩, hneed⟩
      exact ⟨_, hindices, hneed, rfl⟩
  · obtain ⟨hindices, hneed, rfl⟩ := ofData?_eq_some_iff.1 he
    have hwidth := hasWidth_ofData hbuilt hindices (by omega)
    refine ⟨hwidth.width, fun k hk => hwidth.mem_keys (by omega) hk, fun m hm => ?_, ?_⟩
    · rw [spins_ofData hm, hwidth.width]
    · rw [numVariables_ofData, hwidth.width]

/-- An objective of one declared variable with an entry beyond it, named with the higher variable
first. -/
def straying : Qubo Float := (Qubo.blank 1).add 3 1 2

theorem ofData?_exact_straying : straying.Built ∧
    ∃ e, ofData? (.genericQubo straying) = some e ∧ e.qubo.width = 4 ∧
      (∀ k ∈ e.qubo.terms.keys, k.1 ≤ k.2 ∧ k.2 < 4) ∧
      e.metadata.get? "num_variables" = some (Scalar.num 4) := by
  have hbuilt : straying.Built := .add (.blank 1) 3 1 2
  obtain ⟨hgranted, hexact, -, -⟩ := ofData?_exact (.genericQubo straying)
    fun qubo h => ProblemData.genericQubo.inj h ▸ hbuilt
  obtain ⟨e, he⟩ := Option.isSome_iff_exists.1 (hgranted.2 ⟨by decide, by decide⟩)
  obtain ⟨hwidth, hkeys, -, hnumber⟩ := hexact e he
  exact ⟨hbuilt, e, he, hwidth, hkeys, hnumber⟩

end Encoding

end QuantumWorkbench
