import QuantumWorkbench.Proofs.Circuit.Depth
import QuantumWorkbench.Proofs.Gate.Comparison
import QuantumWorkbench.Proofs.Simplification.Reordering
import QuantumWorkbench.Simplification.Pass

/-!
# What reordering keeps

Reordering is a row of exchanges of neighbours, each of a wider gate with a narrower one behind it
that passes the commutation test with it. Of gates of different widths only those on different
qubits pass the test. So an exchange is seen by no qubit, and neither is the whole row: every qubit
keeps its gates in their order, and the circuit its depth.
-/

namespace QuantumWorkbench.Simplification

open Gate

variable {α : Type}

/-! ## Histories -/

/-- The gates that touch a qubit, in their order. -/
def history (q : ℕ) (gates : List (Gate α)) : List (Gate α) := gates.filter fun g => q ∈ g.qubits

@[simp] theorem history_append (q : ℕ) (gs hs : List (Gate α)) :
    history q (gs ++ hs) = history q gs ++ history q hs := List.filter_append gs hs

/-- Two gates with no qubit in common come one after the other in no history. -/
theorem history_exchange {a b : Gate α} (h : a.qubits.Disjoint b.qubits) (q : ℕ) :
    history q [b, a] = history q [a, b] := by
  by_cases ha : q ∈ a.qubits
  · have hb : q ∉ b.qubits := fun hb => h ha hb
    simp [history, ha, hb]
  · by_cases hb : q ∈ b.qubits <;> simp [history, ha, hb]

/-- The same gates, which no qubit and no count of levels can tell from those before. -/
structure SameHistories (gates gates' : List (Gate α)) : Prop where
  perm : gates'.Perm gates
  history_eq : ∀ q, history q gates' = history q gates
  depthOn_eq : ∀ f, depthOn f (gates'.map Gate.qubits) = depthOn f (gates.map Gate.qubits)

namespace SameHistories

variable {gates gates' gates'' : List (Gate α)}

theorem refl (gates : List (Gate α)) : SameHistories gates gates :=
  ⟨.refl _, fun _ => rfl, fun _ => rfl⟩

theorem trans (h : SameHistories gates gates') (h' : SameHistories gates' gates'') :
    SameHistories gates gates'' where
  perm := h'.perm.trans h.perm
  history_eq q := (h'.history_eq q).trans (h.history_eq q)
  depthOn_eq f := (h'.depthOn_eq f).trans (h.depthOn_eq f)

/-- Neighbours with no qubit in common trade places unseen. -/
theorem exchange {a b : Gate α} (h : a.qubits.Disjoint b.qubits) (before after : List (Gate α)) :
    SameHistories (before ++ a :: b :: after) (before ++ b :: a :: after) := by
  refine ⟨?perm, fun q => ?history, fun f => ?depth⟩
  case perm => exact (List.Perm.swap a b after).append_left before
  case history =>
    have hpair := history_exchange h q
    change history q (before ++ ([b, a] ++ after)) = history q (before ++ ([a, b] ++ after))
    simp only [history_append, hpair]
  case depth =>
    have hpair (f : ℕ → ℕ) := depthOn_exchange (f := f) h (after.map Gate.qubits)
    simp only [List.map_append, List.map_cons]
    apply le_antisymm
    · exact depthOn_append_le (fun f => (hpair f).le) _
    · exact depthOn_append_le (fun f => (hpair f).ge) _

/-- A circuit with the same gates in another order has the same depth, or none like before. -/
theorem depth?_eq [Scalar α] (h : SameHistories gates gates') (c : Circuit α) :
    (c.withGates gates').depth? = (c.withGates gates).depth? := by
  have hregister : (c.withGates gates').inRegister = (c.withGates gates).inRegister :=
    h.perm.all_eq
  unfold Circuit.depth?
  rw [hregister]
  split
  · next hinside =>
    have hbefore : ∀ g ∈ gates, ∀ q ∈ g.qubits, q < c.width := by
      simp only [Circuit.inRegister, List.all_eq_true, decide_eq_true_eq] at hinside
      exact hinside
    have hafter : ∀ g ∈ gates', ∀ q ∈ g.qubits, q < c.width :=
      fun g hg => hbefore g (h.perm.mem_iff.1 hg)
    rw [Circuit.depth_eq (c := c.withGates gates) hbefore,
      Circuit.depth_eq (c := c.withGates gates') hafter]
    exact congrArg some (h.depthOn_eq _)
  · rfl

end SameHistories

/-! ## Exchanges -/

variable [Scalar α]

/-- A wider gate and a narrower one behind it, which pass the commutation test, are exchanged. -/
inductive Exchange : List (Gate α) → List (Gate α) → Prop where
  | at (before : List (Gate α)) {a b : Gate α} (hwider : b.width < a.width)
      (hcommute : a.commutes b = true) (after : List (Gate α)) :
      Exchange (before ++ a :: b :: after) (before ++ b :: a :: after)

/-- A number of exchanges one after another. -/
inductive Exchanges : ℕ → List (Gate α) → List (Gate α) → Prop where
  | none (gates : List (Gate α)) : Exchanges 0 gates gates
  | more {n : ℕ} {gates between gates' : List (Gate α)} (h : Exchange gates between)
      (rest : Exchanges n between gates') : Exchanges (n + 1) gates gates'

/-- **The step**: no history sees an exchange. The test alone would pass for gates on the same
qubits too, but those have the same width. -/
theorem Exchange.sameHistories {gates gates' : List (Gate α)} (h : Exchange gates gates') :
    SameHistories gates gates' := by
  obtain ⟨before, hwider, hcommute, after⟩ := h
  exact .exchange (disjoint_of_commutes hcommute hwider.ne') before after

/-- **The run**: no history sees a row of exchanges. -/
theorem Exchanges.sameHistories {n : ℕ} {gates gates' : List (Gate α)}
    (h : Exchanges n gates gates') : SameHistories gates gates' := by
  induction h with
  | none gates => exact .refl gates
  | more h _ ih => exact h.sameHistories.trans ih

theorem Exchanges.cons {n : ℕ} {gates gates' : List (Gate α)} (h : Exchanges n gates gates')
    (g : Gate α) : Exchanges n (g :: gates) (g :: gates') := by
  induction h with
  | none gates => exact .none _
  | more h _ ih =>
    obtain ⟨before, hwider, hcommute, after⟩ := h
    exact .more (.at (g :: before) hwider hcommute after) ih

/-! ## The walk -/

/-- Looks at a position and the one before it, and exchanges the gates there if they may be. -/
def exchangeAt (walked : List (Gate α) × ℕ) (i : ℕ) : List (Gate α) × ℕ :=
  match walked.1[i - 1]?, walked.1[i]? with
  | some a, some b =>
    if b.width < a.width && a.commutes b then ((walked.1.set (i - 1) b).set i a, walked.2 + 1)
    else walked
  | _, _ => walked

theorem exchangeAt_append (done : List (Gate α)) (a b : Gate α) (rest : List (Gate α)) (n : ℕ) :
    exchangeAt (done ++ a :: b :: rest, n) (done.length + 1) =
      if b.width < a.width && a.commutes b then (done ++ b :: a :: rest, n + 1)
      else (done ++ a :: b :: rest, n) := by
  simp [exchangeAt]

/-- From the gate that the walk carries on, the positions that are left do what carrying does. -/
theorem foldl_exchangeAt (done : List (Gate α)) (g : Gate α) (gs : List (Gate α)) (n : ℕ) :
    (List.range' (done.length + 1) gs.length).foldl exchangeAt (done ++ g :: gs, n) =
      (done ++ (carry g gs).1, n + (carry g gs).2) := by
  induction gs generalizing done g n with
  | nil => rfl
  | cons h hs ih =>
    rw [List.length_cons, List.range'_succ, List.foldl_cons, exchangeAt_append]
    unfold carry
    split
    · -- the narrower gate is done with, and the wider one is carried on
      have hrest := ih (done ++ [h]) g (n + 1)
      simp only [List.length_append, List.length_singleton, List.append_assoc,
        List.singleton_append] at hrest
      rw [hrest, Nat.add_assoc, Nat.add_comm 1]
    · -- the gate stays where it is, and the next one is carried on
      have hrest := ih (done ++ [g]) h n
      simp only [List.length_append, List.length_singleton, List.append_assoc,
        List.singleton_append] at hrest
      exact hrest

/-- **Reordering walks through the positions of the list in place.** -/
theorem reorder_eq_foldl (gates : List (Gate α)) :
    reorder gates = (List.range' 1 (gates.length - 1)).foldl exchangeAt (gates, 0) := by
  cases gates with
  | nil => rfl
  | cons g gs =>
    have hwalk := foldl_exchangeAt [] g gs 0
    simp only [List.length_nil, List.nil_append, Nat.zero_add] at hwalk
    exact hwalk.symm

/-- The walk makes as many exchanges as it counts. -/
theorem exchanges_carry (g : Gate α) (gs : List (Gate α)) :
    Exchanges (carry g gs).2 (g :: gs) (carry g gs).1 := by
  induction gs generalizing g with
  | nil => exact .none _
  | cons h hs ih =>
    unfold carry
    split
    · next hexchange =>
      simp only [Bool.and_eq_true, decide_eq_true_eq] at hexchange
      exact .more (.at [] hexchange.1 hexchange.2 hs) ((ih g).cons h)
    · exact (ih h).cons g

theorem exchanges_reorder (gates : List (Gate α)) :
    Exchanges (reorder gates).2 gates (reorder gates).1 := by
  cases gates with
  | nil => exact .none _
  | cons g gs => exact exchanges_carry g gs

/-- **Reordering keeps the history of every qubit.** The walk through the positions of a list makes a
number of exchanges of neighbours; the pass always succeeds with its result, and reports a change
unless there was no exchange. The gates after it are those before it; every qubit sees the same
gates in the same order; a circuit has the same depth, also where it has none since a gate lies
outside its register; and the pairs of a wider gate before a narrower one are fewer by the number of
exchanges. -/
theorem reorder_keeps_histories (gates : List (Gate α)) : ∃ moved swaps,
    (List.range' 1 (gates.length - 1)).foldl exchangeAt (gates, 0) = (moved, swaps) ∧
    Pass.reorder.apply gates = .ok (moved, swaps != 0) ∧
    Exchanges swaps gates moved ∧
    moved.Perm gates ∧
    (∀ q, history q moved = history q gates) ∧
    (∀ c : Circuit α, (c.withGates moved).depth? = (c.withGates gates).depth?) ∧
    inversions (moved.map Gate.width) + swaps = inversions (gates.map Gate.width) := by
  have hexchanges := exchanges_reorder gates
  have hsame := hexchanges.sameHistories
  exact ⟨_, _, (reorder_eq_foldl gates).symm, rfl, hexchanges, hsame.perm, hsame.history_eq,
    hsame.depth?_eq, inversions_reorder gates⟩

end QuantumWorkbench.Simplification
