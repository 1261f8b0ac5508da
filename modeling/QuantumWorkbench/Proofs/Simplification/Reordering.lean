import QuantumWorkbench.Simplification.Reordering

/-!
# How far reordering goes

Every exchange of a walk puts one narrower gate before a wider one. The number of pairs in the wrong
order goes down by one each time, and a walk without exchanges leaves no neighbours that could be
exchanged.
-/

namespace QuantumWorkbench.Simplification

/-- The number of pairs of which the earlier is the larger. -/
def inversions : List Nat → Nat
  | [] => 0
  | w :: ws => ws.countP (· < w) + inversions ws

variable {α : Type} [Scalar α]

theorem carry_perm (g : Gate α) (gs : List (Gate α)) : (carry g gs).1.Perm (g :: gs) := by
  induction gs generalizing g with
  | nil => exact .refl _
  | cons h hs ih =>
    unfold carry
    split
    · exact ((ih g).cons h).trans (.swap g h hs)
    · exact (ih h).cons g

theorem reorder_perm (gates : List (Gate α)) : (reorder gates).1.Perm gates := by
  cases gates with
  | nil => exact .refl _
  | cons g gs => exact carry_perm g gs

/-- **Every exchange removes one inversion of the widths**. -/
theorem inversions_carry (g : Gate α) (gs : List (Gate α)) :
    inversions ((carry g gs).1.map Gate.width) + (carry g gs).2 =
      inversions ((g :: gs).map Gate.width) := by
  induction gs generalizing g with
  | nil => rfl
  | cons h hs ih =>
    unfold carry
    split
    · next hexchange =>
      -- the narrow gate comes to the front, where it is the smaller of no inversion
      simp only [Bool.and_eq_true, decide_eq_true_eq] at hexchange
      have hcount : ((carry g hs).1.map Gate.width).countP (· < h.width) =
          (hs.map Gate.width).countP (· < h.width) := by
        rw [((carry_perm g hs).map Gate.width).countP_eq, List.map_cons,
          List.countP_cons_of_neg (by simpa using Nat.le_of_lt hexchange.1)]
      have hrest := ih g
      simp only [List.map_cons, inversions, hcount, List.countP_cons, hexchange.1,
        decide_true, if_true] at hrest ⊢
      omega
    · -- the gate in front stays, and behind it the same widths come in another order
      have hcount : ((carry h hs).1.map Gate.width).countP (· < g.width) =
          ((h :: hs).map Gate.width).countP (· < g.width) :=
        ((carry_perm h hs).map Gate.width).countP_eq _
      have hrest := ih h
      rw [List.map_cons, List.map_cons, inversions, inversions, hcount, Nat.add_assoc]
      exact congrArg (_ + ·) hrest

/-- **A walk without exchanges changes nothing**, and no neighbours could be exchanged. -/
theorem carry_of_eq_zero {g : Gate α} {gs : List (Gate α)} (h : (carry g gs).2 = 0) :
    (carry g gs).1 = g :: gs ∧
      ∀ before a b after, g :: gs = before ++ a :: b :: after →
        ¬ (b.width < a.width ∧ a.commutes b = true) := by
  induction gs generalizing g with
  | nil =>
    refine ⟨rfl, fun before a b after hsplit => ?_⟩
    have hlen := congrArg List.length hsplit
    simp at hlen
    omega
  | cons x xs ih =>
    unfold carry at h ⊢
    split at h
    · cases h
    · next hnot =>
      rw [if_neg hnot]
      obtain ⟨hsame, hall⟩ := ih h
      refine ⟨congrArg (g :: ·) hsame, fun before a b after hsplit => ?_⟩
      cases before with
      | nil =>
        -- the first two gates are those the walk looked at
        cases hsplit
        simpa [-not_and] using hnot
      | cons y ys =>
        rw [List.cons_append, List.cons.injEq] at hsplit
        exact hall ys a b after hsplit.2

theorem reorder_of_eq_zero {gates : List (Gate α)} (h : (reorder gates).2 = 0) :
    (reorder gates).1 = gates ∧ ∀ before a b after, gates = before ++ a :: b :: after →
      ¬ (b.width < a.width ∧ a.commutes b = true) := by
  cases gates with
  | nil =>
    refine ⟨rfl, fun before a b after hsplit => ?_⟩
    cases before <;> cases hsplit
  | cons g gs => exact carry_of_eq_zero h

theorem inversions_reorder (gates : List (Gate α)) :
    inversions ((reorder gates).1.map Gate.width) + (reorder gates).2 =
      inversions (gates.map Gate.width) := by
  cases gates with
  | nil => rfl
  | cons g gs => exact inversions_carry g gs

end QuantumWorkbench.Simplification
