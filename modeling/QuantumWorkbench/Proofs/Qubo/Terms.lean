import Mathlib
import QuantumWorkbench.Proofs.Qubo.Value

/-!
# Objectives as sums of their terms

The terms that an objective is built from may come in any order, name one pair of variables several
times, and name the variables of a pair either way round. The entry of a pair adds up the
coefficients of all terms on that pair. So an objective depends on nothing but which terms are
listed, and its values, its coefficients, its keys and its width can be read off the list.
-/

namespace QuantumWorkbench.Qubo

/-! ## Pairs without an order -/

section

variable {α : Type}

/-- The two variables of a term, in no order. -/
def pairOf (t : ℕ × ℕ × α) : Sym2 ℕ := s(t.1, t.2.1)

/-- The key of a pair is the one way round that names the lower variable first. -/
theorem ordered_eq_iff {i j : ℕ} {k : ℕ × ℕ} :
    ordered i j = k ↔ k.1 ≤ k.2 ∧ s(i, j) = s(k.1, k.2) := by
  obtain ⟨a, b⟩ := k
  rw [ordered, Sym2.eq_iff]
  split <;> simp only [Prod.mk.injEq] <;> omega

theorem pair_ordered (i j : ℕ) : s((ordered i j).1, (ordered i j).2) = s(i, j) :=
  (ordered_eq_iff.1 rfl).2.symm

theorem ordered_le (i j : ℕ) : (ordered i j).1 ≤ (ordered i j).2 := (ordered_eq_iff.1 rfl).1

/-- Two lists with the same terms, in whatever order, each naming its variables either way round. -/
def SameTerms (terms terms' : List (ℕ × ℕ × α)) : Prop :=
  (terms.map fun t => (pairOf t, t.2.2)).Perm (terms'.map fun t => (pairOf t, t.2.2))

theorem SameTerms.trans {terms terms' terms'' : List (ℕ × ℕ × α)} (h : SameTerms terms terms')
    (h' : SameTerms terms' terms'') : SameTerms terms terms'' := List.Perm.trans h h'

theorem sameTerms_of_perm {terms terms' : List (ℕ × ℕ × α)} (h : terms.Perm terms') :
    SameTerms terms terms' := h.map _

theorem sameTerms_turned (before after : List (ℕ × ℕ × α)) (i j : ℕ) (x : α) :
    SameTerms (before ++ (i, j, x) :: after) (before ++ (j, i, x) :: after) := by
  have hpair : pairOf (i, j, x) = pairOf (j, i, x) := Sym2.eq_swap
  simp only [SameTerms, List.map_append, List.map_cons, hpair]
  exact List.Perm.refl _

end

/-! ## The entry of a pair -/

/-- The coefficients of the terms on a pair, in the order of the list. -/
def sharesOf (pair : Sym2 ℕ) (terms : List (ℕ × ℕ × ℝ)) : List ℝ :=
  (terms.filter fun t => pairOf t = pair).map fun t => t.2.2

/-- What shares come to: their sum, and nothing where there are none. -/
noncomputable def total? : List ℝ → Option ℝ
  | [] => none
  | xs => some xs.sum

theorem total?_perm {xs ys : List ℝ} (h : xs.Perm ys) : total? xs = total? ys := by
  cases xs with
  | nil => rw [List.nil_perm.1 h]
  | cons x xs =>
    cases ys with
    | nil => exact absurd h.length_eq (by simp)
    | cons y ys => exact congrArg some h.sum_eq

theorem getD_total? (xs : List ℝ) : (total? xs).getD 0 = xs.sum := by
  cases xs <;> rfl

theorem exists_total?_iff {xs : List ℝ} : (∃ x, total? xs = some x) ↔ xs ≠ [] := by
  cases xs <;> simp [total?]

/-- Adding shares one after another, from nothing. -/
theorem foldl_shares (xs : List ℝ) :
    xs.foldl (fun old x => some (old.getD 0 + x)) none = total? xs := by
  -- past the first share there is always a sum
  have hsum : ∀ (xs : List ℝ) (y : ℝ),
      xs.foldl (fun old x => some (old.getD 0 + x)) (some y) = some (y + xs.sum) := by
    intro xs
    induction xs with
    | nil => simp
    | cons x xs ih => simp [ih, add_assoc]
  cases xs with
  | nil => rfl
  | cons x xs => simp [hsum, total?]

/-- **The entry of a pair** is the sum of its shares, under the key that names the lower variable
first; no other key has an entry. -/
theorem get?_ofTerms (declared : ℕ) (terms : List (ℕ × ℕ × ℝ)) (k : ℕ × ℕ) :
    (ofTerms declared terms).terms.get? k =
      if k.1 ≤ k.2 then total? (sharesOf s(k.1, k.2) terms) else none := by
  -- no key is out of order, and one in order collects the terms of its pair, named either way
  have hfilter : (terms.filter fun t => decide (ordered t.1 t.2.1 = k)) =
      if k.1 ≤ k.2 then terms.filter fun t => decide (pairOf t = s(k.1, k.2)) else [] := by
    split
    · next hle =>
      apply List.filter_congr
      intro t _
      exact decide_eq_decide.2 (ordered_eq_iff.trans (and_iff_right hle))
    · next hle =>
      apply List.filter_eq_nil_iff.2
      intro t _ ht
      exact hle (ordered_eq_iff.1 (of_decide_eq_true ht)).1
  have hfold : (ofTerms declared terms).terms.get? k =
      (((terms.filter fun t => decide (ordered t.1 t.2.1 = k)).map fun t => t.2.2).foldl
        (fun old x => some (old.getD 0 + x)) none) := by
    rw [ofTerms, addTerms, SortedMap.get?_updateAll, List.filter_map, List.foldl_map,
      List.foldl_map]
    rfl
  rw [hfold, foldl_shares, hfilter]
  split <;> rfl

theorem mem_keys_ofTerms {declared : ℕ} {terms : List (ℕ × ℕ × ℝ)} {k : ℕ × ℕ} :
    k ∈ (ofTerms declared terms).terms.keys ↔
      k.1 ≤ k.2 ∧ ∃ t ∈ terms, pairOf t = s(k.1, k.2) := by
  rw [SortedMap.mem_keys_iff, get?_ofTerms]
  split
  · next hle =>
    rw [exists_total?_iff, sharesOf, Ne, List.map_eq_nil_iff, List.filter_eq_nil_iff]
    simp [hle]
  · next hle => simp [hle]

/-- Only the pair and the coefficient of a term matter to the shares. -/
theorem sharesOf_perm {terms terms' : List (ℕ × ℕ × ℝ)} (h : SameTerms terms terms')
    (pair : Sym2 ℕ) : (sharesOf pair terms).Perm (sharesOf pair terms') := by
  have hshares : ∀ terms : List (ℕ × ℕ × ℝ), sharesOf pair terms =
      ((terms.map fun t => (pairOf t, t.2.2)).filter fun e => e.1 = pair).map Prod.snd := by
    intro terms
    rw [List.filter_map, List.map_map]
    rfl
  rw [hshares, hshares]
  exact (h.filter _).map _

/-- **The same terms make the same objective.** -/
theorem ofTerms_congr {terms terms' : List (ℕ × ℕ × ℝ)} (h : SameTerms terms terms')
    (declared : ℕ) : ofTerms declared terms' = ofTerms declared terms := by
  have hentries : (ofTerms declared terms').terms = (ofTerms declared terms).terms := by
    apply SortedMap.ext_get?
    intro k
    rw [get?_ofTerms, get?_ofTerms, total?_perm (sharesOf_perm h s(k.1, k.2))]
  exact congrArg (Qubo.mk declared) hentries

theorem coefficient_ofTerms (declared : ℕ) (terms : List (ℕ × ℕ × ℝ)) (i j : ℕ) :
    (ofTerms declared terms).coefficient i j = (sharesOf s(i, j) terms).sum := by
  rw [coefficient, get?_ofTerms, if_pos (ordered_le i j), pair_ordered, getD_total?]

theorem coefficient_comm {α : Type} [Scalar α] (q : Qubo α) (i j : ℕ) :
    q.coefficient i j = q.coefficient j i := by
  have hkey : ordered i j = ordered j i :=
    ordered_eq_iff.2 ⟨ordered_le j i, by rw [pair_ordered, Sym2.eq_swap]⟩
  rw [coefficient, coefficient, hkey]

/-! ## The width -/

/-- **The width of a list of terms** is the least number that is at least what is declared and the
successor of every variable, where the last index is its own successor. -/
theorem width_ofTerms_le_iff (declared : ℕ) (terms : List (ℕ × ℕ × ℝ)) {n : ℕ} :
    (ofTerms declared terms).width ≤ n ↔
      declared ≤ n ∧ ∀ t ∈ terms, ∀ v ∈ pairOf t, Index.nextClamped v ≤ n := by
  have hmono : ∀ {a b : ℕ}, a ≤ b → Index.nextClamped a ≤ Index.nextClamped b := fun h => by
    simp only [Index.nextClamped]
    omega
  have hkeys : (∀ e ∈ (ofTerms declared terms).terms.entries, Index.nextClamped e.1.2 ≤ n) ↔
      ∀ k ∈ (ofTerms declared terms).terms.keys, Index.nextClamped k.2 ≤ n := by
    simp only [SortedMap.keys, List.forall_mem_map]
  rw [width_le_iff, hkeys]
  refine and_congr_right fun _ => ⟨fun h t ht v hv => ?_, fun h k hk => ?_⟩
  · -- a variable of a term is at most the higher variable of the key
    have hkey : ordered t.1 t.2.1 ∈ (ofTerms declared terms).terms.keys :=
      mem_keys_ofTerms.2 ⟨ordered_le _ _, t, ht, (pair_ordered _ _).symm⟩
    have hle : v ≤ (ordered t.1 t.2.1).2 := by
      rcases Sym2.mem_iff.1 hv with rfl | rfl <;> rw [ordered] <;> split <;> dsimp only <;> omega
    exact (hmono hle).trans (h _ hkey)
  · obtain ⟨-, t, ht, hpair⟩ := mem_keys_ofTerms.1 hk
    exact h t ht k.2 (hpair ▸ Sym2.mem_mk_right k.1 k.2)

/-! ## The objective of a list -/

/-- **An objective is the sum of the terms that it was built from.** On every assignment, of
whatever length, its value adds up the terms whose variables are both one. The order of the terms
and of the two variables of each does not matter to the objective. The coefficient of a pair is the
sum of the coefficients of the terms on it, in either order; the keys are the pairs that have terms,
the lower variable first; and the width covers every variable below the last index. -/
theorem ofTerms_adds_up (declared : ℕ) (terms : List (ℕ × ℕ × ℝ)) :
    (∀ bits, IsAssignment bits → (ofTerms declared terms).evaluate bits =
      (terms.map fun t => t.2.2 * (bitAt bits t.1 * bitAt bits t.2.1 : ℝ)).sum) ∧
    (∀ terms', SameTerms terms terms' → ofTerms declared terms' = ofTerms declared terms) ∧
    (∀ i j, (ofTerms declared terms).coefficient i j = (ofTerms declared terms).coefficient j i ∧
      (ofTerms declared terms).coefficient i j =
        ((terms.filter fun t => pairOf t = s(i, j)).map fun t => t.2.2).sum) ∧
    (∀ k, k ∈ (ofTerms declared terms).terms.keys ↔
      k.1 ≤ k.2 ∧ ∃ t ∈ terms, pairOf t = s(k.1, k.2)) ∧
    (∀ t ∈ terms, ∀ v ∈ pairOf t, v + 1 < Index.limit → v < (ofTerms declared terms).width) ∧
    ∀ n, (ofTerms declared terms).width ≤ n ↔
      declared ≤ n ∧ ∀ t ∈ terms, ∀ v ∈ pairOf t, Index.nextClamped v ≤ n := by
  refine ⟨?value, ?same, ?coefficient, fun k => mem_keys_ofTerms, ?covers,
    fun n => width_ofTerms_le_iff declared terms⟩
  case value => exact fun bits hbits => evaluate_ofTerms hbits declared terms
  case same => exact fun terms' h => ofTerms_congr h declared
  case coefficient =>
    exact fun i j => ⟨coefficient_comm _ i j, coefficient_ofTerms declared terms i j⟩
  case covers =>
    intro t ht v hv hlast
    have hnext := ((width_ofTerms_le_iff declared terms).1 le_rfl).2 t ht v hv
    rw [Index.nextClamped] at hnext
    omega

/-- Two variables are declared; a pair is named both ways round, and a term reaches variable 5. -/
noncomputable def bothWays : List (ℕ × ℕ × ℝ) := [(1, 0, -1), (5, 1, 2), (0, 1, 2), (1, 1, 1)]

/-- The pair of variables 0 and 1 gets the sum of its two terms, and the term on variable 5 counts
only where the assignment is long enough. -/
theorem ofTerms_adds_up_bothWays :
    (ofTerms 2 bothWays).evaluate [1, 1] = 2 ∧
    (ofTerms 2 bothWays).evaluate [0, 1, 0, 0, 0, 1] = 3 ∧
    ofTerms 2 [(1, 1, 1), (1, 0, 2), (1, 0, -1), (5, 1, 2)] = ofTerms 2 bothWays ∧
    (ofTerms 2 bothWays).coefficient 1 0 = 1 ∧
    (1, 5) ∈ (ofTerms 2 bothWays).terms.keys ∧ 5 < (ofTerms 2 bothWays).width := by
  obtain ⟨hvalue, hsame, hcoefficient, hkeys, hcovers, -⟩ := ofTerms_adds_up 2 bothWays
  refine ⟨?_, ?_, ?_, ?_, ?_, ?_⟩
  · rw [hvalue _ (by decide)]
    simp [bothWays, bitAt]
  · rw [hvalue _ (by decide)]
    simp [bothWays, bitAt]
    norm_num
  · -- one pair is turned round, then the last two terms move to the front
    apply hsame
    apply (sameTerms_turned [(1, 0, -1), (5, 1, 2)] [(1, 1, 1)] 0 1 2).trans
    apply sameTerms_of_perm
    exact List.perm_append_comm.trans ((List.Perm.swap (1, 1, 1) (1, 0, 2) _))
  · rw [(hcoefficient 1 0).2]
    have hfilter : (bothWays.filter fun t => pairOf t = s(1, 0)) = [(1, 0, -1), (0, 1, 2)] := by
      simp [bothWays, pairOf]
    rw [hfilter]
    norm_num
  · exact (hkeys (1, 5)).2 ⟨by decide, (5, 1, 2), by simp [bothWays], Sym2.eq_swap⟩
  · exact hcovers (5, 1, 2) (by simp [bothWays]) 5 (Sym2.mem_mk_left 5 1) (by decide)

end QuantumWorkbench.Qubo
