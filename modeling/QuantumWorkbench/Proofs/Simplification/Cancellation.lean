import QuantumWorkbench.Simplification.Cancellation

/-!
# Where cancelling takes place

A partner that is found is the inverse of its gate, and all gates between them commute with it. What
is left after cancelling is part of the list, and all of it exactly where no gate has a partner.
-/

namespace QuantumWorkbench.Simplification

variable {α : Type} [Scalar α] {lookahead position : Nat}

/-- A partner is the inverse of its gate, behind gates that commute with the gate. -/
theorem exists_of_partnerIn {g : Gate α} {gs : List (Gate α)} {k : Nat}
    (h : partnerIn g gs = some k) :
    ∃ between b rest, gs = between ++ b :: rest ∧ between.length = k ∧
      (∀ x ∈ between, g.commutes x = true) ∧ g.isInverseOf b = true := by
  induction gs generalizing k with
  | nil => cases h
  | cons x xs ih =>
    unfold partnerIn at h
    split at h
    · next hinverse =>
      -- the partner is right behind the gate
      cases h
      exact ⟨[], x, xs, rfl, rfl, by simp, hinverse⟩
    · split at h
      · next hcommutes =>
        obtain ⟨k', hk', rfl⟩ := Option.map_eq_some_iff.1 h
        obtain ⟨between, b, rest, rfl, hlen, hall, hinverse⟩ := ih hk'
        exact ⟨x :: between, b, rest, rfl, by simp [hlen],
          List.forall_mem_cons.2 ⟨hcommutes, hall⟩, hinverse⟩
      · cases h

/-- The same for a partner in a window: what follows the window follows the partner. -/
theorem exists_of_partnerIn_take {g : Gate α} {gs : List (Gate α)} {k window : Nat}
    (h : partnerIn g (gs.take window) = some k) :
    ∃ between b rest, gs = between ++ b :: rest ∧ between.length = k ∧
      (∀ x ∈ between, g.commutes x = true) ∧ g.isInverseOf b = true := by
  obtain ⟨between, b, rest, htake, hlen, hall, hinverse⟩ := exists_of_partnerIn h
  refine ⟨between, b, rest ++ gs.drop window, ?_, hlen, hall, hinverse⟩
  rw [← List.cons_append, ← List.append_assoc, ← htake, List.take_append_drop]

/-! ## What is left -/

theorem cancelFrom_sublist (lookahead position : Nat) (gates : List (Gate α)) :
    (cancelFrom lookahead position gates).Sublist gates := by
  fun_induction cancelFrom lookahead position gates with
  | case1 => exact List.Sublist.refl _
  | case2 position g gs k hk ih => exact (ih.trans (List.eraseIdx_sublist gs k)).cons g
  | case3 position g gs hk ih => exact ih.cons_cons g

/-- Where cancelling takes nothing away no gate has a partner. -/
theorem findPartner_eq_none_of_length {gates : List (Gate α)}
    (h : (cancelFrom lookahead position gates).length = gates.length) {i : Nat} {g : Gate α}
    {gs : List (Gate α)} (hi : gates.drop i = g :: gs) :
    partnerIn g (gs.take (reach lookahead (position + i))) = none := by
  fun_induction cancelFrom lookahead position gates generalizing i with
  | case1 => simp at hi
  | case2 position g' gs' k hk ih =>
    -- a pair would have gone
    have hle := (cancelFrom_sublist lookahead position (gs'.eraseIdx k)).length_le
    have herase := List.length_eraseIdx_le gs' k
    rw [List.length_cons] at h
    omega
  | case3 position g' gs' hk ih =>
    -- the gate stays; the window of a later gate is counted from the front of the list
    cases i with
    | zero =>
      cases hi
      exact hk
    | succ i =>
      rw [List.length_cons, List.length_cons, Nat.add_right_cancel_iff] at h
      rw [← Nat.add_assoc, Nat.add_right_comm]
      exact ih h hi

/-- **Cancelling changes nothing** exactly where it takes no gate away; no gate has a partner
then. -/
theorem cancelInverses_of_length {gates : List (Gate α)}
    (h : (cancelInverses lookahead gates).length = gates.length) :
    cancelInverses lookahead gates = gates ∧ ∀ i, findPartner lookahead gates i = none := by
  refine ⟨(cancelFrom_sublist lookahead 0 gates).eq_of_length h, fun i => ?_⟩
  unfold findPartner
  split
  · rfl
  · next hi =>
    have hnone := findPartner_eq_none_of_length h hi
    rw [Nat.zero_add] at hnone
    rw [hnone]
    rfl

end QuantumWorkbench.Simplification
