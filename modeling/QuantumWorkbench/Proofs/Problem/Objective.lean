import Mathlib
import QuantumWorkbench.Problem.Encoding
import QuantumWorkbench.Proofs.Qubo.Value

/-!
# What encodings count

The objective of each problem family, said on the data alone: weights of cut edges, returns and
risks, the squared distance of a load from its capacity, exposed edges, colours and clashes,
literals. Every encoding has the objective of its data as its value, on every assignment, and
records the penalty and the constant that the objective is stated with.
-/

namespace QuantumWorkbench

open Qubo

/-! ## Counting -/

/-- Ones are counted by adding the bits. -/
theorem sum_bits {b : ℕ → ℕ} (hb : ∀ c, b c < 2) (s : Finset ℕ) :
    ∑ c ∈ s, (b c : ℝ) = ((s.filter fun c => b c = 1).card : ℝ) := by
  rw [Finset.card_filter, Nat.cast_sum]
  refine Finset.sum_congr rfl fun c _ => ?_
  have hc := hb c
  interval_cases b c <;> simp

/-- Pairs of ones are counted by adding the products of later bits with earlier ones. -/
theorem sum_bit_pairs {b : ℕ → ℕ} (hb : ∀ c, b c < 2) (k : ℕ) :
    ∑ c ∈ Finset.range k, ∑ c' ∈ Finset.Ico (c + 1) k, (b c * b c' : ℝ) =
      (((Finset.range k).filter fun c => b c = 1).card.choose 2 : ℝ) := by
  induction k with
  | zero => simp
  | succ k ih =>
    -- the new position makes a pair with each one before it
    have hrow : ∀ c ∈ Finset.range k, ∑ c' ∈ Finset.Ico (c + 1) (k + 1), (b c * b c' : ℝ) =
        ∑ c' ∈ Finset.Ico (c + 1) k, (b c * b c' : ℝ) + b c * b k := fun c hc =>
      Finset.sum_Ico_succ_top (Finset.mem_range.1 hc) _
    rw [Finset.sum_range_succ, Finset.Ico_self, Finset.sum_empty, add_zero,
      Finset.sum_congr rfl hrow, Finset.sum_add_distrib, ih, ← Finset.sum_mul, sum_bits hb,
      Finset.range_add_one, Finset.filter_insert]
    have hk := hb k
    interval_cases hbit : b k
    · simp
    · rw [if_pos rfl, Finset.card_insert_of_notMem (by simp), Nat.choose_succ_succ',
        Nat.choose_one_right]
      push_cast
      ring

/-- A constant that some items of a list count. -/
theorem sum_map_ite_const {β : Type} (p : β → Bool) (c : ℝ) (xs : List β) :
    (xs.map fun x => if p x then c else 0).sum = c * xs.countP p := by
  induction xs with
  | nil => simp
  | cons x xs ih =>
    rw [List.map_cons, List.sum_cons, ih, List.countP_cons]
    split <;> push_cast <;> ring

namespace ProblemData

/-! ## Objectives -/

section

variable (bits : List ℕ)

/-- The weights of the edges whose ends are on different sides. -/
noncomputable def cutWeight (edges : List (WeightedEdge ℝ)) : ℝ :=
  (edges.map fun e => if bitAt bits e.u = bitAt bits e.v then 0 else e.weight).sum

/-- The amounts of the chosen among the first `n` items; a missing amount is zero. -/
noncomputable def chosen (n : ℕ) (amounts : List ℝ) : ℝ :=
  ∑ i ∈ Finset.range n, amounts.getD i 0 * bitAt bits i

/-- The entries of a matrix at pairs of chosen items; a missing entry is zero. -/
noncomputable def chosenPairs (n : ℕ) (rows : List (List ℝ)) : ℝ :=
  ∑ i ∈ Finset.range n, ∑ j ∈ Finset.range n, (rows.getD i []).getD j 0 * bothSet bits (i, j)

/-- The number of edges of which exactly one end is chosen. -/
def exposed (edges : List (ℕ × ℕ)) : ℕ :=
  edges.countP fun e => bitAt bits e.1 != bitAt bits e.2

/-- The colours that are selected for a vertex. -/
def colorsOf (colors vertex : ℕ) : Finset ℕ :=
  (Finset.range colors).filter fun c => bitAt bits (Encoding.colorVariable colors vertex c) = 1

/-- The number of literals of one sign whose variable is one. -/
def literalsSet (negated : Bool) (clauses : List (List Literal)) : ℕ :=
  clauses.flatten.countP fun l => l.negated == negated && bitAt bits l.index == 1

/-- **The objective of data** at an assignment. A pair of colours of one vertex is counted once. -/
noncomputable def objective : ProblemData ℝ → ℝ
  | .maxCut _ edges => cutWeight bits edges
  | .tsp .. => 0
  | .portfolio returns covariance riskAversion _ =>
    -chosen bits returns.length returns +
      riskAversion * chosenPairs bits returns.length covariance
  | .knapsack weights values capacity =>
    -chosen bits weights.length values +
      2 * values.sum * (chosen bits weights.length weights - capacity) ^ 2 -
      2 * values.sum * capacity ^ 2
  | .vertexCover vertices edges =>
    ∑ v ∈ Finset.range vertices, (bitAt bits v : ℝ) + 10 * vertices * exposed bits edges
  | .graphColoring vertices edges colors =>
    10 * vertices * colors *
      (-∑ v ∈ Finset.range vertices, ((colorsOf bits colors v).card : ℝ) +
        ∑ v ∈ Finset.range vertices, ((colorsOf bits colors v).card.choose 2 : ℝ) +
        (edges.map fun e =>
          ((colorsOf bits colors e.1 ∩ colorsOf bits colors e.2).card : ℝ)).sum)
  | .sat _ clauses =>
    10 * clauses.length * (literalsSet bits true clauses - literalsSet bits false clauses)
  | .genericQubo q => (q.terms.entries.map fun e => e.2 * bothSet bits e.1).sum

end

/-- The penalty that an objective is stated with. -/
noncomputable def penalty? : ProblemData ℝ → Option ℝ
  | .tsp .. => some 1000
  | .knapsack _ values _ => some (2 * values.sum)
  | .vertexCover vertices _ => some (10 * vertices)
  | .graphColoring vertices _ colors => some (10 * vertices * colors)
  | .sat _ clauses => some (10 * clauses.length)
  | .maxCut .. | .portfolio .. | .genericQubo .. => none

/-- The constant that an objective leaves out. -/
noncomputable def offset? : ProblemData ℝ → Option ℝ
  | .knapsack _ values capacity => some (2 * values.sum * capacity ^ 2)
  | _ => none

end ProblemData

namespace Encoding

open ProblemData

/-! ## Sums of terms -/

section

variable {bits : List ℕ} (hbits : IsAssignment bits)
include hbits

/-- A multiple of an amount on the diagonal for each item. -/
theorem valueOf_linear (c : ℝ) (n : ℕ) (amounts : List ℝ) :
    valueOf bits ((amounts.take n).zipIdx.map fun (x, i) => (i, i, c * x)) =
      c * chosen bits n amounts := by
  have hsum := Scalar.sum_zipIdx_take (f := fun x i => c * (x * bitAt bits i)) (d := 0)
    (fun i => by ring) n amounts
  rw [valueOf, List.map_map, chosen, Finset.mul_sum, ← hsum]
  exact congrArg List.sum (List.map_congr_left fun e _ => by
    rw [Function.comp_apply, bothSet_self hbits, mul_assoc])

omit hbits in
/-- A multiple of a matrix. -/
theorem valueOf_matrixTerms (c : ℝ) (n : ℕ) (rows : List (List ℝ)) :
    valueOf bits ((matrixTerms n rows).map fun (i, j, x) => (i, j, c * x)) =
      c * chosenPairs bits n rows := by
  have hrow (row : List ℝ) (i : ℕ) :
      valueOf bits ((row.take n).zipIdx.map fun (x, j) => (i, j, c * x)) =
        ∑ j ∈ Finset.range n, c * (row.getD j 0 * bothSet bits (i, j)) := by
    have hsum := Scalar.sum_zipIdx_take (f := fun x j => c * (x * bothSet bits (i, j))) (d := 0)
      (fun j => by ring) n row
    rw [valueOf, List.map_map, ← hsum]
    exact congrArg List.sum (List.map_congr_left fun e _ => mul_assoc _ _ _)
  have hrows := Scalar.sum_zipIdx_take
    (f := fun row i => ∑ j ∈ Finset.range n, c * (row.getD j 0 * bothSet bits (i, j))) (d := [])
    (fun i => by simp) n rows
  -- a row that is missing has no entries, so it adds nothing
  rw [matrixTerms, List.map_flatMap, valueOf_flatMap, chosenPairs, Finset.mul_sum]
  simp only [Finset.mul_sum]
  rw [← hrows]
  refine congrArg List.sum (List.map_congr_left fun e _ => ?_)
  rw [List.map_map]
  exact hrow e.1 e.2

omit hbits in
/-- The square of a load, as a term for each pair of items. -/
theorem valueOf_squares (c : ℝ) (weights : List ℝ) :
    valueOf bits (weights.zipIdx.flatMap fun (wi, i) =>
        weights.zipIdx.map fun (wj, j) => (i, j, c * wi * wj)) =
      c * chosen bits weights.length weights ^ 2 := by
  have hload : chosen bits weights.length weights =
      (weights.zipIdx.map fun e => e.1 * (bitAt bits e.2 : ℝ)).sum := by
    have hsum := Scalar.sum_zipIdx_take (f := fun x i => x * bitAt bits i) (d := 0)
      (fun i => zero_mul _) weights.length weights
    rw [chosen, ← hsum, List.take_length]
  -- the terms of one item add up to its share of the load, times the load
  have hrow (wi : ℝ) (i : ℕ) :
      valueOf bits (weights.zipIdx.map fun (wj, j) => (i, j, c * wi * wj)) =
        c * chosen bits weights.length weights * (wi * bitAt bits i) := by
    rw [hload, mul_right_comm, valueOf, List.map_map, ← List.sum_map_mul_left]
    refine congrArg List.sum (List.map_congr_left fun e _ => ?_)
    simp only [Function.comp_apply, bothSet]
    ring
  rw [valueOf_flatMap]
  simp only [hrow]
  rw [List.sum_map_mul_left, ← hload, pow_two, mul_assoc]

/-- An amount for each of the chosen. -/
theorem valueOf_uniform (c : ℝ) (n : ℕ) :
    valueOf bits ((List.range n).map fun v => (v, v, c)) =
      c * ∑ v ∈ Finset.range n, (bitAt bits v : ℝ) := by
  rw [Finset.mul_sum, valueOf, List.map_map]
  exact congrArg List.sum (List.map_congr_left fun v _ => by
    rw [Function.comp_apply, bothSet_self hbits])

/-- A penalty at each end of an edge, which is taken back where both ends are chosen. -/
theorem valueOf_coverTerms (c : ℝ) (edges : List (ℕ × ℕ)) :
    valueOf bits (edges.flatMap fun (i, j) => [(i, i, c), (j, j, c), (i, j, -2 * c)]) =
      c * exposed bits edges := by
  rw [valueOf_flatMap, exposed, ← sum_map_ite_const]
  refine congrArg List.sum (List.map_congr_left fun e _ => ?_)
  have hu := hbits.bitAt_lt e.1
  have hv := hbits.bitAt_lt e.2
  simp only [valueOf, bothSet, List.map_cons, List.map_nil, List.sum_cons, List.sum_nil]
  interval_cases bitAt bits e.1 <;> interval_cases bitAt bits e.2 <;> norm_num
  ring

/-- A reward for each colour of a vertex, and a penalty for each pair of its colours. -/
theorem valueOf_vertexTerms (colors : ℕ) (c : ℝ) (vertex : ℕ) :
    valueOf bits (vertexTerms colors c vertex) =
      c * (-((colorsOf bits colors vertex).card : ℝ) +
        ((colorsOf bits colors vertex).card.choose 2 : ℝ)) := by
  -- the pairs of a colour are those with the colours after it, so each pair is met once
  have hb (color : ℕ) := hbits.bitAt_lt (colorVariable colors vertex color)
  rw [colorsOf, ← sum_bits hb, ← sum_bit_pairs hb, mul_add, mul_neg, ← neg_mul, Finset.mul_sum,
    Finset.mul_sum, ← Finset.sum_add_distrib, vertexTerms, valueOf_flatMap]
  refine congrArg List.sum (List.map_congr_left fun color _ => ?_)
  rw [valueOf, List.map_cons, List.sum_cons, List.map_map, bothSet_self hbits, Finset.mul_sum]
  rfl

/-- A penalty for each colour of both ends. -/
theorem valueOf_edgeTerms (colors : ℕ) (c : ℝ) (edge : ℕ × ℕ) :
    valueOf bits (edgeTerms colors c edge) =
      c * ((colorsOf bits colors edge.1 ∩ colorsOf bits colors edge.2).card : ℝ) := by
  rw [colorsOf, colorsOf, ← Finset.filter_and, Finset.card_filter, Nat.cast_sum, Finset.mul_sum,
    edgeTerms, valueOf, List.map_map]
  refine congrArg List.sum (List.map_congr_left fun color _ => ?_)
  have hu := hbits.bitAt_lt (colorVariable colors edge.1 color)
  have hv := hbits.bitAt_lt (colorVariable colors edge.2 color)
  simp only [Function.comp_apply, bothSet]
  interval_cases bitAt bits (colorVariable colors edge.1 color) <;>
    interval_cases bitAt bits (colorVariable colors edge.2 color) <;> simp

/-! ## Values of the families -/

theorem evaluate_maxCut (vertices : ℕ) (edges : List (WeightedEdge ℝ)) :
    (maxCut vertices edges).qubo.evaluate bits = cutWeight bits edges := by
  have hedge (e : WeightedEdge ℝ) :
      valueOf bits (cutTerms e) = if bitAt bits e.u = bitAt bits e.v then 0 else e.weight := by
    have hu := hbits.bitAt_lt e.u
    have hv := hbits.bitAt_lt e.v
    simp only [valueOf, cutTerms, bothSet, Scalar.two_real, List.map_cons, List.map_nil,
      List.sum_cons, List.sum_nil]
    interval_cases bitAt bits e.u <;> interval_cases bitAt bits e.v <;> norm_num
    ring
  have hqubo : (maxCut vertices edges).qubo = Qubo.ofTerms vertices (edges.flatMap cutTerms) := rfl
  rw [hqubo, evaluate_ofTerms hbits, valueOf_flatMap, cutWeight]
  simp only [hedge]

theorem evaluate_portfolio (returns : List ℝ) (covariance : List (List ℝ)) (riskAversion : ℝ)
    (budget : Option ℝ) :
    (portfolio returns covariance riskAversion budget).qubo.evaluate bits =
      -chosen bits returns.length returns +
        riskAversion * chosenPairs bits returns.length covariance := by
  have hgains := valueOf_linear hbits (-1) returns.length returns
  rw [List.take_length] at hgains
  have hqubo : (portfolio returns covariance riskAversion budget).qubo =
      (Qubo.ofTerms returns.length (returns.zipIdx.map fun (r, i) => (i, i, -r))).addTerms
        ((matrixTerms returns.length covariance).map fun (i, j, x) => (i, j, riskAversion * x)) := by
    cases budget <;> rfl
  rw [hqubo, evaluate_addTerms hbits, evaluate_ofTerms hbits, valueOf_matrixTerms]
  simp only [neg_one_mul] at hgains
  rw [hgains]

theorem evaluate_knapsack (weights values : List ℝ) (capacity : ℝ) :
    (knapsack weights values capacity).qubo.evaluate bits =
      -chosen bits weights.length values +
        2 * values.sum * (chosen bits weights.length weights - capacity) ^ 2 -
        2 * values.sum * capacity ^ 2 := by
  -- the square without its constant part is the square of the load and a linear share
  have hgains := valueOf_linear hbits (-1) weights.length values
  have hlinear := valueOf_linear hbits (-2 * (2 * values.sum) * capacity) weights.length weights
  simp only [neg_one_mul] at hgains
  rw [List.take_length] at hlinear
  have hqubo : (knapsack weights values capacity).qubo =
      ((Qubo.ofTerms weights.length ((values.take weights.length).zipIdx.map fun (v, i) =>
          (i, i, -v))).addTerms
        (weights.zipIdx.flatMap fun (wi, i) => weights.zipIdx.map fun (wj, j) =>
          (i, j, 2 * values.sum * wi * wj))).addTerms
        (weights.zipIdx.map fun (w, i) => (i, i, -2 * (2 * values.sum) * capacity * w)) := by
    simp only [knapsack, ofQubo, record, Scalar.two_real, Scalar.sum_real]
  rw [hqubo, evaluate_addTerms hbits, evaluate_addTerms hbits, evaluate_ofTerms hbits, hgains,
    valueOf_squares, hlinear]
  ring

theorem evaluate_vertexCover (vertices : ℕ) (edges : List (ℕ × ℕ)) :
    (vertexCover vertices edges).qubo.evaluate bits =
      ∑ v ∈ Finset.range vertices, (bitAt bits v : ℝ) +
        10 * vertices * exposed bits edges := by
  have hqubo : (vertexCover vertices edges).qubo =
      (Qubo.ofTerms vertices ((List.range vertices).map fun v => (v, v, (1 : ℝ)))).addTerms
        (edges.flatMap fun (i, j) =>
          [(i, i, (10 * vertices : ℝ)), (j, j, 10 * vertices), (i, j, -2 * (10 * vertices))]) := by
    simp only [vertexCover, ofQubo, record, Scalar.two_real, Scalar.num_real, uniform_eq_ofTerms]
    norm_num
  rw [hqubo, evaluate_addTerms hbits, evaluate_ofTerms hbits, valueOf_uniform hbits, one_mul,
    valueOf_coverTerms hbits]

theorem evaluate_graphColoring (width vertices : ℕ) (edges : List (ℕ × ℕ)) (colors : ℕ) :
    (graphColoring width vertices edges colors).qubo.evaluate bits =
      10 * vertices * colors *
        (-∑ v ∈ Finset.range vertices, ((colorsOf bits colors v).card : ℝ) +
          ∑ v ∈ Finset.range vertices, ((colorsOf bits colors v).card.choose 2 : ℝ) +
          (edges.map fun e =>
            ((colorsOf bits colors e.1 ∩ colorsOf bits colors e.2).card : ℝ)).sum) := by
  have hrewards (penalty : ℝ) (n : ℕ) :
      valueOf bits ((List.range n).flatMap (vertexTerms colors penalty)) =
        penalty * (-∑ v ∈ Finset.range n, ((colorsOf bits colors v).card : ℝ) +
          ∑ v ∈ Finset.range n, ((colorsOf bits colors v).card.choose 2 : ℝ)) := by
    rw [← Finset.sum_neg_distrib, ← Finset.sum_add_distrib, Finset.mul_sum, valueOf_flatMap]
    exact congrArg List.sum (List.map_congr_left fun v _ => valueOf_vertexTerms hbits _ _ _)
  have hclashes (penalty : ℝ) : valueOf bits (edges.flatMap (edgeTerms colors penalty)) =
      penalty * (edges.map fun e =>
        ((colorsOf bits colors e.1 ∩ colorsOf bits colors e.2).card : ℝ)).sum := by
    rw [valueOf_flatMap, ← List.sum_map_mul_left]
    exact congrArg List.sum (List.map_congr_left fun e _ => valueOf_edgeTerms hbits _ _ _)
  simp only [graphColoring, ofQubo, record]
  rw [evaluate_addTerms hbits, evaluate_ofTerms hbits, hrewards, hclashes]
  rcases Nat.eq_zero_or_pos colors with hcolors | hcolors
  · -- without colours the penalty is zero
    simp [hcolors]
  · rw [if_neg hcolors.ne']
    simp only [Scalar.num_real]
    push_cast
    ring

theorem evaluate_sat (width : ℕ) (clauses : List (List Literal)) :
    (sat width clauses).qubo.evaluate bits =
      10 * clauses.length *
        ((literalsSet bits true clauses : ℝ) - literalsSet bits false clauses) := by
  -- a literal counts among those of its own sign
  have hliteral (c : ℝ) (l : Literal) :
      (if l.negated then c else -c) * bothSet bits (l.index, l.index) =
        (if l.negated == true && bitAt bits l.index == 1 then c else 0) +
          if l.negated == false && bitAt bits l.index == 1 then -c else 0 := by
    have hbit := hbits.bitAt_lt l.index
    rw [bothSet_self hbits]
    cases l.negated <;> interval_cases bitAt bits l.index <;> simp
  simp only [sat, ofQubo, record]
  rw [evaluate_ofTerms hbits, valueOf, List.map_map]
  simp only [Function.comp_def, hliteral, Scalar.num_real]
  rw [List.sum_map_add, sum_map_ite_const, sum_map_ite_const, literalsSet, literalsSet]
  push_cast
  ring

end

/-! ## Records -/

section

variable {key key' : String}

theorem get?_record_self (e : Encoding ℝ) (x : ℝ) :
    (e.record key x).metadata.get? key = some x :=
  SortedMap.get?_insert_self e.metadata key x

theorem get?_record_of_ne (h : key ≠ key') (e : Encoding ℝ) (x : ℝ) :
    (e.record key' x).metadata.get? key = e.metadata.get? key :=
  SortedMap.get?_insert_of_ne e.metadata h x

theorem get?_ofQubo_of_ne (h : key ≠ "num_variables") (q : Qubo ℝ) (interpretation : String) :
    (ofQubo q interpretation).metadata.get? key = none := by
  rw [ofQubo, SortedMap.ofList_eq_foldl]
  exact SortedMap.get?_insert_of_ne .empty h _

end

theorem penalty?_ofData (width : ℕ) (data : ProblemData ℝ) :
    (ofData width data).penalty? = data.penalty? := by
  cases data with
  | portfolio _ _ _ budget =>
    cases budget <;>
      simp [ofData, portfolio, penalty?, penaltyKey, ProblemData.penalty?, get?_record_of_ne,
        get?_ofQubo_of_ne]
  | _ =>
    simp [ofData, maxCut, tsp, knapsack, vertexCover, graphColoring, sat, penalty?, penaltyKey,
      ProblemData.penalty?, get?_record_self, get?_record_of_ne, get?_ofQubo_of_ne, tourPenalty,
      Scalar.sum_real]

theorem get?_offset_ofData (width : ℕ) (data : ProblemData ℝ) :
    (ofData width data).metadata.get? "offset" = data.offset? := by
  cases data with
  | portfolio _ _ _ budget =>
    cases budget <;>
      simp [ofData, portfolio, ProblemData.offset?, get?_record_of_ne, get?_ofQubo_of_ne]
  | _ =>
    simp [ofData, maxCut, tsp, knapsack, vertexCover, graphColoring, sat, penaltyKey,
      ProblemData.offset?, get?_record_self, get?_record_of_ne, get?_ofQubo_of_ne,
      Scalar.sum_real, pow_two, mul_assoc]

/-! ## The objective of data -/

theorem evaluate_ofData {bits : List ℕ} (hbits : IsAssignment bits) (width : ℕ)
    (data : ProblemData ℝ) :
    (ofData width data).qubo.evaluate bits = data.objective bits := by
  cases data with
  | maxCut vertices edges => exact evaluate_maxCut hbits vertices edges
  | tsp cities => exact evaluate_blank hbits (cities * cities)
  | portfolio returns covariance riskAversion budget =>
    exact evaluate_portfolio hbits returns covariance riskAversion budget
  | knapsack weights values capacity => exact evaluate_knapsack hbits weights values capacity
  | vertexCover vertices edges => exact evaluate_vertexCover hbits vertices edges
  | graphColoring vertices edges colors =>
    exact evaluate_graphColoring hbits width vertices edges colors
  | sat count clauses => exact evaluate_sat hbits count clauses
  | genericQubo q => exact evaluate_eq_weighted hbits q

/-- **An encoding has the objective of its data** as its value on every assignment, and records the
penalty and the constant that this objective is stated with. -/
theorem evaluate_eq_objective {data : ProblemData ℝ} {e : Encoding ℝ} (h : ofData? data = some e)
    {bits : List ℕ} (hbits : IsAssignment bits) :
    e.qubo.evaluate bits = data.objective bits ∧ e.penalty? = data.penalty? ∧
      e.metadata.get? "offset" = data.offset? := by
  obtain ⟨width, -, hwidth⟩ := Option.bind_eq_some_iff.1 h
  split at hwidth
  · exact absurd hwidth (by simp)
  · cases hwidth
    exact ⟨evaluate_ofData hbits width data, penalty?_ofData width data,
      get?_offset_ofData width data⟩

/-- Two items of which the second has no value, and a load of three against a capacity of two. -/
theorem evaluate_eq_objective_overloaded :
    ∃ e, ofData? (.knapsack [1, 2] [3] 2 : ProblemData ℝ) = some e ∧
      e.qubo.evaluate [1, 1] = -21 ∧ e.penalty? = some 6 ∧
      e.metadata.get? "offset" = some 24 := by
  have hbits : IsAssignment [1, 1] := by decide
  have hencoded : ofData? (.knapsack [1, 2] [3] 2 : ProblemData ℝ) =
      some (knapsack [1, 2] [3] 2) := rfl
  obtain ⟨hvalue, hpenalty, hoffset⟩ := evaluate_eq_objective hencoded hbits
  refine ⟨_, hencoded, hvalue.trans ?_, hpenalty.trans ?_, hoffset.trans ?_⟩
  · norm_num [objective, chosen, bitAt, Finset.sum_range_succ]
  · norm_num [ProblemData.penalty?]
  · norm_num [ProblemData.offset?]

end Encoding

end QuantumWorkbench
