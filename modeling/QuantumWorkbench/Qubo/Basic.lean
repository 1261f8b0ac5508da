import QuantumWorkbench.Index
import QuantumWorkbench.Scalar.Basic
import QuantumWorkbench.SortedMap

/-!
# Quadratic objectives over bits

A sparse quadratic objective `Σ Q(i, j) · x i · x j` over variables that are zero or one. The
entries are kept by pairs of variables, the lower first; an entry on the diagonal is a linear term.
Adding to a pair in either order adds to one entry.
-/

namespace QuantumWorkbench

/-- A quadratic objective, with a declared number of variables. -/
structure Qubo (α : Type) where
  declared : Nat
  terms : SortedMap (Nat × Nat) α

namespace Qubo

/-- A pair of variables with the lower first. -/
def ordered (i j : Nat) : Nat × Nat := if i ≤ j then (i, j) else (j, i)

variable {α : Type} [Scalar α]

/-- The objective without terms. -/
def blank (declared : Nat) : Qubo α := ⟨declared, .empty⟩

/-- Adds to the entry of a pair. -/
def add (q : Qubo α) (i j : Nat) (x : α) : Qubo α :=
  { q with terms := q.terms.update (ordered i j) fun old => old.getD 0 + x }

/-- Adds to the entry of one variable. -/
def addLinear (q : Qubo α) (i : Nat) (x : α) : Qubo α := q.add i i x

/-- Adds a list of terms in order. -/
def addTerms (q : Qubo α) (terms : List (Nat × Nat × α)) : Qubo α :=
  { q with
    terms := q.terms.updateAll (fun old x => old.getD 0 + x)
      (terms.map fun t => (ordered t.1 t.2.1, t.2.2)) }

theorem addTerms_eq_foldl (q : Qubo α) (terms : List (Nat × Nat × α)) :
    q.addTerms terms = terms.foldl (fun q t => q.add t.1 t.2.1 t.2.2) q := by
  rw [addTerms, SortedMap.updateAll_eq_foldl, List.foldl_map]
  induction terms generalizing q with
  | nil => rfl
  | cons t terms ih => exact ih (q.add t.1 t.2.1 t.2.2)

/-- The objective of a list of terms. -/
def ofTerms (declared : Nat) (terms : List (Nat × Nat × α)) : Qubo α :=
  (blank declared).addTerms terms

/-- The objective with the same linear term for each of a number of variables. -/
def uniform (width : Nat) (x : α) : Qubo α where
  declared := width
  terms := ⟨(List.range width).map fun v => ((v, v), 0 + x),
    List.pairwise_map.2 (List.pairwise_lt_range.imp Or.inl)⟩

theorem uniform_eq_ofTerms (width : Nat) (x : α) :
    uniform width x = ofTerms width ((List.range width).map fun v => (v, v, x)) := by
  -- the induction is on the variables that have terms, whatever width is declared
  suffices h : ∀ n, (uniform n x).terms =
      ((ofTerms width ((List.range n).map fun v => (v, v, x))).terms) by
    rw [uniform, ofTerms, addTerms]
    exact congrArg (Qubo.mk width) (h width)
  intro n
  rw [ofTerms, addTerms_eq_foldl]
  induction n with
  | zero => rfl
  | succ n ih =>
    rw [List.range_succ, List.map_append, List.foldl_append, List.map_singleton, List.foldl_cons,
      List.foldl_nil, add, ← ih]
    -- the new variable comes after all others, so it is added at the end
    refine SortedMap.ext ?_
    simp only [uniform, SortedMap.update, ordered, Nat.le_refl, if_true]
    have h : ∀ e ∈ (List.range n).map fun v => ((v, v), 0 + x), KeyOrder.lt e.1 (n, n) := by
      intro e he
      obtain ⟨v, hv, rfl⟩ := List.mem_map.1 he
      exact Or.inl (List.mem_range.1 hv)
    have happend := Entries.update_append (f := fun old => old.getD 0 + x) h []
    rw [List.append_nil] at happend
    rw [happend, List.range_succ, List.map_append]
    rfl

/-- The entry of a pair in either order, zero where there is none. -/
def coefficient (q : Qubo α) (i j : Nat) : α := (q.terms.get? (ordered i j)).getD 0

/-- The number of variables: as many as declared, and enough for every term. -/
def width (q : Qubo α) : Nat :=
  q.terms.entries.foldl (fun width e => max width (Index.nextClamped e.1.2)) q.declared

/-! ## Values -/

/-- The value of a term, from the bits of its variables. -/
@[inline] def termValue (bit : Nat → Nat) (term : (Nat × Nat) × α) : α :=
  if term.1.1 = term.1.2 then term.2 * Scalar.num (bit term.1.1)
  else term.2 * Scalar.num (bit term.1.1) * Scalar.num (bit term.1.2)

/-- Whether both variables of a term are among the first so many. -/
@[inline] def isWithin (width : Nat) (term : (Nat × Nat) × α) : Bool :=
  term.1.1 < width && term.1.2 < width

/-- The sum of the terms within the first so many variables, from the bits of these. -/
@[specialize] def evaluateBy (q : Qubo α) (width : Nat) (bit : Nat → Nat) : α :=
  q.terms.entries.foldl (fun acc term =>
    if isWithin width term then acc + termValue bit term else acc) (-0)

theorem evaluateBy_eq_sum (q : Qubo α) (width : Nat) (bit : Nat → Nat) :
    q.evaluateBy width bit =
      Scalar.sum ((q.terms.entries.filter (isWithin width)).map (termValue bit)) := by
  rw [evaluateBy, Scalar.sum, List.foldl_map, List.foldl_filter]

/-- The objective of an assignment; terms of variables beyond it are left out. -/
def evaluate (q : Qubo α) (bits : List Nat) : α :=
  let table := bits.toArray
  q.evaluateBy table.size fun k => table.getD k 0

/-- What a term adds to the slope of the objective in a variable. -/
def slopeTerm (bits : List Nat) (k : Nat) (term : (Nat × Nat) × α) : α :=
  if term.1.1 = term.1.2 then term.2
  else
    let other := if term.1.1 = k then term.1.2 else term.1.1
    term.2 * Scalar.num (bits.getD other 0)

/-- The change of the objective when one variable is flipped, from the terms of that variable
alone. -/
def flipDelta (q : Qubo α) (bits : List Nat) (k : Nat) : α :=
  let near := q.terms.entries.filter fun term => term.1.1 = k || term.1.2 = k
  let direction : α := if bits.getD k 0 = 0 then 1 else -1
  direction * Scalar.sum (near.map (slopeTerm bits k))

/-! ## Text -/

/-- The sizes of an objective. -/
def text (q : Qubo α) : String := s!"QUBO({q.width} variables, {q.terms.size} terms)"

end Qubo

end QuantumWorkbench
