import Mathlib
import QuantumWorkbench.Proofs.SortedMap.Weighted
import QuantumWorkbench.Qubo.Basic
import QuantumWorkbench.Search.Solution
import QuantumWorkbench.SortedMap.Group
import QuantumWorkbench.Storage

/-!
# Values of quadratic objectives

On an assignment of zeros and ones an objective is the sum of its entries, each counted where both
of its variables are one. So an objective that is built from a list of terms adds up these terms, in
whatever order they are listed, with whatever repetitions, and whichever of its two variables a term
names first.
-/

namespace QuantumWorkbench

theorem Storage.lt_of_holds {bytes count : ℕ} (hbytes : 0 < bytes)
    (h : Storage.holds bytes count = true) : count < Index.limit - 1 := by
  rw [Storage.holds, decide_eq_true_iff] at h
  have hle : count ≤ bytes * count := Nat.le_mul_of_pos_left count hbytes
  have hlimits : Storage.limit < Index.limit - 1 := by decide
  omega

namespace Qubo

/-! ## Assignments -/

/-- Every bit of an assignment is zero or one. -/
def IsAssignment (bits : List ℕ) : Prop := ∀ b ∈ bits, b < 2

instance (bits : List ℕ) : Decidable (IsAssignment bits) :=
  inferInstanceAs (Decidable (∀ b ∈ bits, b < 2))

/-- The bit of a variable; a variable beyond the assignment is zero. -/
def bitAt (bits : List ℕ) (k : ℕ) : ℕ := bits.getD k 0

theorem bitAt_of_le {bits : List ℕ} {k : ℕ} (h : bits.length ≤ k) : bitAt bits k = 0 :=
  List.getD_eq_default bits 0 h

theorem IsAssignment.bitAt_lt {bits : List ℕ} (hbits : IsAssignment bits) (k : ℕ) :
    bitAt bits k < 2 := by
  by_cases hk : k < bits.length
  · rw [bitAt, List.getD_eq_getElem bits 0 hk]
    exact hbits _ (List.getElem_mem hk)
  · rw [bitAt_of_le (Nat.le_of_not_lt hk)]
    exact two_pos

/-- A bit is its own square. -/
theorem IsAssignment.bitAt_mul_self {bits : List ℕ} (hbits : IsAssignment bits) (k : ℕ) :
    (bitAt bits k * bitAt bits k : ℝ) = bitAt bits k := by
  have hlt := hbits.bitAt_lt k
  interval_cases bitAt bits k <;> simp

theorem isAssignment_bitsOfIndex (x width : ℕ) : IsAssignment (Solution.bitsOfIndex x width) := by
  induction width generalizing x with
  | zero => exact fun b hb => absurd hb List.not_mem_nil
  | succ width ih => exact List.forall_mem_cons.2 ⟨Nat.mod_lt x two_pos, ih (x / 2)⟩

/-- Whether both variables of a pair are one, as a number. -/
noncomputable def bothSet (bits : List ℕ) (pair : ℕ × ℕ) : ℝ :=
  bitAt bits pair.1 * bitAt bits pair.2

theorem bothSet_self {bits : List ℕ} (hbits : IsAssignment bits) (k : ℕ) :
    bothSet bits (k, k) = bitAt bits k := hbits.bitAt_mul_self k

theorem bothSet_ordered (bits : List ℕ) (i j : ℕ) :
    bothSet bits (ordered i j) = bothSet bits (i, j) := by
  unfold ordered
  split
  · rfl
  · exact mul_comm _ _

/-! ## The value of an objective -/

/-- An objective adds up the values of its entries whose variables the assignment reaches. -/
theorem evaluate_eq_sum {α : Type} [Scalar α] (q : Qubo α) (bits : List ℕ) :
    q.evaluate bits = Scalar.sum
      ((q.terms.entries.filter (isWithin bits.length)).map (termValue (bitAt bits))) := by
  have hbit : (fun k => bits.toArray.getD k 0) = bitAt bits := funext fun k => by
    simp [bitAt]
  rw [evaluate, evaluateBy_eq_sum, hbit, List.size_toArray]

/-- An entry counts where both of its variables are one; one that is left out because a variable is
beyond the assignment would count nothing anyway. -/
private theorem ite_termValue {bits : List ℕ} (hbits : IsAssignment bits) (e : (ℕ × ℕ) × ℝ) :
    (if isWithin bits.length e = true then termValue (bitAt bits) e else 0) =
      e.2 * bothSet bits e.1 := by
  obtain ⟨⟨i, j⟩, x⟩ := e
  simp only [isWithin, termValue, Scalar.num_real, bothSet, Bool.and_eq_true, decide_eq_true_eq]
  -- a variable beyond the assignment has the bit zero, so the product vanishes as well
  by_cases hi : i < bits.length
  · by_cases hj : j < bits.length
    · rw [if_pos ⟨hi, hj⟩]
      split
      · next hij => rw [← hij, hbits.bitAt_mul_self]
      · rw [mul_assoc]
    · rw [if_neg (fun h => hj h.2), bitAt_of_le (Nat.le_of_not_lt hj)]
      simp
  · rw [if_neg (fun h => hi h.1), bitAt_of_le (Nat.le_of_not_lt hi)]
    simp

/-- **The value of an objective** is the sum of its entries, weighted by the bits of both
variables. -/
theorem evaluate_eq_weighted {bits : List ℕ} (hbits : IsAssignment bits) (q : Qubo ℝ) :
    q.evaluate bits = q.terms.weighted (bothSet bits) := by
  have hsplit := List.sum_map_ite (fun e => isWithin bits.length e = true)
    (termValue (bitAt bits)) (fun _ => 0) q.terms.entries
  rw [evaluate_eq_sum, Scalar.sum_real, SortedMap.weighted]
  simpa [ite_termValue hbits] using hsplit.symm

/-- The sum of a list of terms, each counted where both of its variables are one. -/
noncomputable def valueOf (bits : List ℕ) (terms : List (ℕ × ℕ × ℝ)) : ℝ :=
  (terms.map fun t => t.2.2 * bothSet bits (t.1, t.2.1)).sum

theorem valueOf_append (bits : List ℕ) (terms terms' : List (ℕ × ℕ × ℝ)) :
    valueOf bits (terms ++ terms') = valueOf bits terms + valueOf bits terms' := by
  simp [valueOf]

theorem valueOf_flatMap {β : Type} (bits : List ℕ) (f : β → List (ℕ × ℕ × ℝ)) (bs : List β) :
    valueOf bits (bs.flatMap f) = (bs.map fun b => valueOf bits (f b)).sum := by
  induction bs with
  | nil => rfl
  | cons b bs ih => rw [List.flatMap_cons, valueOf_append, ih, List.map_cons, List.sum_cons]

section

variable {bits : List ℕ} (hbits : IsAssignment bits)
include hbits

theorem evaluate_blank (declared : ℕ) : (blank declared : Qubo ℝ).evaluate bits = 0 :=
  evaluate_eq_weighted hbits _

/-- **Terms that are added add their sum.** -/
theorem evaluate_addTerms (q : Qubo ℝ) (terms : List (ℕ × ℕ × ℝ)) :
    (q.addTerms terms).evaluate bits = q.evaluate bits + valueOf bits terms := by
  rw [evaluate_eq_weighted hbits, evaluate_eq_weighted hbits, addTerms,
    SortedMap.weighted_updateAll_add, List.map_map, valueOf]
  simp only [Function.comp_def, bothSet_ordered]

/-- **An objective is the sum of the terms that it was built from.** -/
theorem evaluate_ofTerms (declared : ℕ) (terms : List (ℕ × ℕ × ℝ)) :
    (ofTerms declared terms).evaluate bits = valueOf bits terms := by
  rw [ofTerms, evaluate_addTerms hbits, evaluate_blank hbits, zero_add]

end

/-! ## Objectives that can be built -/

section

variable {α : Type} [Scalar α]

/-- What can be built: a blank objective, and an addition to one that was built. -/
inductive Built : Qubo α → Prop
  | blank (declared : ℕ) : Built (.blank declared)
  | add {q : Qubo α} (hq : Built q) (i j : ℕ) (x : α) : Built (q.add i j x)

theorem Built.addTerms {q : Qubo α} (hq : q.Built) (terms : List (ℕ × ℕ × α)) :
    (q.addTerms terms).Built := by
  rw [addTerms_eq_foldl]
  induction terms generalizing q with
  | nil => exact hq
  | cons t terms ih => exact ih (hq.add _ _ _)

theorem built_ofTerms (declared : ℕ) (terms : List (ℕ × ℕ × α)) :
    (ofTerms declared terms).Built := (Built.blank declared).addTerms terms

/-- The lower variable of an entry comes first. -/
theorem Built.ordered {q : Qubo α} (hq : q.Built) : ∀ e ∈ q.terms.entries, e.1.1 ≤ e.1.2 := by
  induction hq with
  | blank => exact fun e he => absurd he List.not_mem_nil
  | @add q _ i j x ih =>
    intro e he
    -- an entry was there before, or it is the one of the new term, whose key is put in order
    rcases Entries.key_of_mem_update he with hkey | ⟨e', he', hkey⟩
    · rw [hkey, Qubo.ordered]
      split <;> omega
    · exact hkey ▸ ih e' he'

/-- Every term of a list has an entry. -/
theorem exists_mem_ofTerms (declared : ℕ) {terms : List (ℕ × ℕ × α)} {t : ℕ × ℕ × α}
    (ht : t ∈ terms) :
    ∃ x, (Qubo.ordered t.1 t.2.1, x) ∈ (ofTerms declared terms).terms.entries := by
  have hget := SortedMap.get?_updateAll (.empty : SortedMap (ℕ × ℕ) α)
    (fun old x => old.getD 0 + x) (terms.map fun t => (Qubo.ordered t.1 t.2.1, t.2.2))
    (Qubo.ordered t.1 t.2.1)
  rcases List.eq_nil_or_concat ((terms.map fun t => (Qubo.ordered t.1 t.2.1, t.2.2)).filter
    fun e => e.1 = Qubo.ordered t.1 t.2.1) with hnil | ⟨before, last, hlast⟩
  · -- the term itself is among the shares of its pair
    have hmem := List.filter_eq_nil_iff.1 hnil _ (List.mem_map_of_mem ht)
    exact absurd (decide_eq_true rfl) hmem
  · rw [hlast, List.concat_eq_append, List.foldl_append] at hget
    exact ⟨_, SortedMap.mem_entries_of_get? hget⟩

/-! ## Widths -/

theorem foldl_max_le_iff {xs : List ℕ} {n m : ℕ} :
    xs.foldl max n ≤ m ↔ n ≤ m ∧ ∀ x ∈ xs, x ≤ m := by
  induction xs generalizing n with
  | nil => simp
  | cons x xs ih => rw [List.foldl_cons, ih, max_le_iff, List.forall_mem_cons, and_assoc]

omit [Scalar α] in
/-- The width is the least number that is at least what is declared and what any entry asks for. -/
theorem width_le_iff {q : Qubo α} {n : ℕ} : q.width ≤ n ↔
    q.declared ≤ n ∧ ∀ e ∈ q.terms.entries, Index.nextClamped e.1.2 ≤ n := by
  have hfold : q.width = (q.terms.entries.map fun e => Index.nextClamped e.1.2).foldl max
      q.declared := List.foldl_map.symm
  rw [hfold, foldl_max_le_iff, List.forall_mem_map]

omit [Scalar α] in
theorem declared_le_width (q : Qubo α) : q.declared ≤ q.width := (width_le_iff.1 le_rfl).1

omit [Scalar α] in
theorem nextClamped_le_width {q : Qubo α} {e : (ℕ × ℕ) × α} (he : e ∈ q.terms.entries) :
    Index.nextClamped e.1.2 ≤ q.width := (width_le_iff.1 le_rfl).2 e he

/-- **Variables lie below the width**, in every register that is not as wide as an index can be. -/
theorem lt_of_width_le {q : Qubo α} (hq : q.Built) {n : ℕ} (hwidth : q.width ≤ n)
    (hn : n < Index.limit - 1) {e : (ℕ × ℕ) × α} (he : e ∈ q.terms.entries) :
    e.1.1 < n ∧ e.1.2 < n := by
  have hnext := (nextClamped_le_width he).trans hwidth
  have hordered := hq.ordered e he
  rw [Index.nextClamped] at hnext
  omega

/-- The variables of every term of a list lie below the width of its objective. -/
theorem lt_of_width_ofTerms_le {declared n : ℕ} {terms : List (ℕ × ℕ × α)}
    (hwidth : (ofTerms declared terms).width ≤ n) (hn : n < Index.limit - 1) {t : ℕ × ℕ × α}
    (ht : t ∈ terms) : t.1 < n ∧ t.2.1 < n := by
  obtain ⟨x, hx⟩ := exists_mem_ofTerms declared ht
  have hlt := lt_of_width_le (built_ofTerms declared terms) hwidth hn hx
  rw [Qubo.ordered] at hlt
  split at hlt
  · exact hlt
  · exact hlt.symm

end

end Qubo

end QuantumWorkbench
