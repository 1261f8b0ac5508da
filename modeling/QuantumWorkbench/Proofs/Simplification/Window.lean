import Mathlib
import QuantumWorkbench.Proofs.Simplification.Cancellation
import QuantumWorkbench.Scalar.Double

/-!
# How far cancelling looks

Which gate is the partner of another does not hang on the window: the window only decides whether
the partner is seen. A larger window sees what a smaller one sees, up to the largest whose end is
still an index; beyond that the end wraps around, and nothing is seen.
-/

namespace QuantumWorkbench.Simplification

variable {α : Type} [Scalar α] {lookahead position : Nat}

/-! ## Partners without a window -/

/-- The gate at the later position is the first inverse of the gate at the earlier one, and all
gates between them commute with it. -/
structure IsPartner (gates : List (Gate α)) (i j : Nat) : Prop where
  behind : i < j
  inverse : ∃ g h, gates[i]? = some g ∧ gates[j]? = some h ∧ g.isInverseOf h = true
  between : ∀ k, i < k → k < j → ∀ g x, gates[i]? = some g → gates[k]? = some x →
    g.commutes x = true ∧ g.isInverseOf x = false

theorem partnerIn_eq_some_iff {g : Gate α} {gs : List (Gate α)} {k : Nat} :
    partnerIn g gs = some k ↔ (∃ h, gs[k]? = some h ∧ g.isInverseOf h = true) ∧
      ∀ m < k, ∀ x, gs[m]? = some x → g.commutes x = true ∧ g.isInverseOf x = false := by
  induction gs generalizing k with
  | nil => simp [partnerIn]
  | cons y ys ih =>
    unfold partnerIn
    split
    · next hinverse =>
      -- the search ends at the first gate, and could not go past it
      cases k with
      | zero => simp [hinverse]
      | succ k =>
        refine iff_of_false (by simp) fun h => ?_
        have hfirst := (h.2 0 k.succ_pos y rfl).2
        rw [hinverse] at hfirst
        cases hfirst
    · next hother =>
      have hother : g.isInverseOf y = false := Bool.eq_false_iff.2 hother
      split
      · next hcommutes =>
        cases k with
        | zero => simp [hother]
        | succ k =>
          rw [Option.map_eq_some_iff]
          simp only [Nat.add_right_cancel_iff, exists_eq_right, ih, List.getElem?_cons_succ]
          refine and_congr_right fun _ => ⟨fun h m hm x hx => ?_, fun h m hm x hx => ?_⟩
          · cases m with
            | zero =>
              cases hx
              exact ⟨hcommutes, hother⟩
            | succ m => exact h m (Nat.lt_of_succ_lt_succ hm) x hx
          · exact h (m + 1) (Nat.succ_lt_succ hm) x hx
      · next hblocks =>
        refine iff_of_false (by simp) fun h => ?_
        cases k with
        | zero => simp [hother] at h
        | succ k => exact hblocks (h.2 0 k.succ_pos y rfl).1

/-- A window shows the partners that lie in it. -/
theorem partnerIn_take_eq_some_iff {g : Gate α} {gs : List (Gate α)} {window k : Nat} :
    partnerIn g (gs.take window) = some k ↔ partnerIn g gs = some k ∧ k < window := by
  have htake (m : Nat) : (gs.take window)[m]? = if m < window then gs[m]? else none :=
    List.getElem?_take
  constructor
  · intro h
    have hk : k < window :=
      Nat.lt_of_lt_of_le (partnerIn_lt h) (List.length_take_le window gs)
    obtain ⟨hinverse, hbetween⟩ := partnerIn_eq_some_iff.1 h
    rw [htake, if_pos hk] at hinverse
    refine ⟨partnerIn_eq_some_iff.2 ⟨hinverse, fun m hm x hx => hbetween m hm x ?_⟩, hk⟩
    rw [htake, if_pos (Nat.lt_trans hm hk), hx]
  · rintro ⟨h, hk⟩
    obtain ⟨hinverse, hbetween⟩ := partnerIn_eq_some_iff.1 h
    refine partnerIn_eq_some_iff.2 ⟨by rwa [htake, if_pos hk], fun m hm x hx => hbetween m hm x ?_⟩
    rwa [htake, if_pos (Nat.lt_trans hm hk)] at hx

theorem partnerIn_iff_isPartner {gates gs : List (Gate α)} {g : Gate α} {i k : Nat}
    (hi : gates.drop i = g :: gs) : partnerIn g gs = some k ↔ IsPartner gates i (k + i + 1) := by
  have hfirst : gates[i]? = some g := by
    rw [← Nat.add_zero i, ← List.getElem?_drop, hi]
    rfl
  have hrest (m : Nat) : gates[m + i + 1]? = gs[m]? := by
    rw [Nat.add_right_comm, Nat.add_comm, ← List.getElem?_drop, hi]
    rfl
  rw [partnerIn_eq_some_iff]
  constructor
  · rintro ⟨⟨h, hh, hinverse⟩, hbetween⟩
    refine ⟨by omega, ⟨g, h, hfirst, (hrest k).trans hh, hinverse⟩, fun m hm hmk g' x hg' hx => ?_⟩
    cases hfirst.symm.trans hg'
    obtain ⟨m, rfl⟩ : ∃ m', m = m' + i + 1 := ⟨m - i - 1, by omega⟩
    exact hbetween m (by omega) x ((hrest m).symm.trans hx)
  · rintro ⟨-, ⟨g', h, hg', hh, hinverse⟩, hbetween⟩
    cases hfirst.symm.trans hg'
    exact ⟨⟨h, (hrest k).symm.trans hh, hinverse⟩, fun m hm x hx =>
      hbetween (m + i + 1) (by omega) (by omega) g x hfirst ((hrest m).trans hx)⟩

/-! ## The end of a window -/

theorem reach_of_lt (h : position + 1 + lookahead < Index.limit) :
    reach lookahead position = lookahead := by
  rw [reach, Index.wrap, Nat.mod_eq_of_lt h, Nat.add_sub_cancel_left]

/-- A window whose end wraps around is empty. -/
theorem reach_of_le (hlookahead : lookahead < Index.limit)
    (h : Index.limit ≤ position + 1 + lookahead) : reach lookahead position = 0 := by
  rw [reach, Index.wrap, Nat.sub_eq_zero_iff_le]
  by_cases hposition : position + 1 < Index.limit
  · -- the end wraps around once, and falls short of the position
    have hwrapped : (position + 1 + lookahead) % Index.limit =
        position + 1 + lookahead - Index.limit := by
      rw [Nat.mod_eq_sub_mod h, Nat.mod_eq_of_lt (by omega)]
    omega
  · have hend : (position + 1 + lookahead) % Index.limit < Index.limit := Nat.mod_lt _ (by decide)
    exact Nat.le_trans (Nat.le_of_lt hend) (Nat.le_of_not_lt hposition)

/-- **What a window shows**: the partner of a gate, where it lies in the window and the end of the
window is an index. -/
theorem findPartner_eq_some_iff (hlookahead : lookahead < Index.limit) {gates : List (Gate α)}
    {i j : Nat} :
    findPartner lookahead gates i = some j ↔
      IsPartner gates i j ∧ j ≤ i + lookahead ∧ i + 1 + lookahead < Index.limit := by
  unfold findPartner
  split
  · next hi =>
    -- there is no gate at the position
    refine iff_of_false (by simp) fun h => ?_
    obtain ⟨g, _, hg, _⟩ := h.1.inverse
    rw [← Nat.add_zero i, ← List.getElem?_drop, hi] at hg
    cases hg
  · next g gs hi =>
    rw [Option.map_eq_some_iff]
    constructor
    · rintro ⟨k, hk, rfl⟩
      obtain ⟨hk, hwindow⟩ := partnerIn_take_eq_some_iff.1 hk
      have hend : i + 1 + lookahead < Index.limit := by
        refine Nat.lt_of_not_le fun hend => ?_
        rw [reach_of_le hlookahead hend] at hwindow
        exact Nat.not_lt_zero k hwindow
      rw [reach_of_lt hend] at hwindow
      exact ⟨(partnerIn_iff_isPartner hi).1 hk, by omega, hend⟩
    · rintro ⟨hpartner, hwindow, hend⟩
      have hbehind := hpartner.behind
      obtain ⟨k, rfl⟩ : ∃ k, j = k + i + 1 := ⟨j - i - 1, by omega⟩
      refine ⟨k, partnerIn_take_eq_some_iff.2 ⟨(partnerIn_iff_isPartner hi).2 hpartner, ?_⟩, rfl⟩
      rw [reach_of_lt hend]
      omega

theorem IsPartner.lt_length {gates : List (Gate α)} {i j : Nat} (h : IsPartner gates i j) :
    j < gates.length := by
  obtain ⟨_, _, _, hj, _⟩ := h.inverse
  exact (List.getElem?_eq_some_iff.1 hj).1

/-! ## Windows longer than the list -/

/-- A window that is longer than the gates after a position takes all of them. -/
theorem take_reach_of_length_lt {β : Type} {xs : List β} (h : xs.length < lookahead)
    (hend : position + (xs.length + 1) + lookahead < Index.limit) :
    xs.take (reach lookahead position) = xs := by
  rw [reach_of_lt (by omega), List.take_of_length_le (Nat.le_of_lt h)]

/-- Windows as long as the list are all alike while their ends are indices. -/
theorem cancelFrom_eq_of_length_le {lookahead' : Nat} {gates : List (Gate α)}
    (h : gates.length ≤ lookahead) (h' : gates.length ≤ lookahead')
    (hend : position + gates.length + lookahead < Index.limit)
    (hend' : position + gates.length + lookahead' < Index.limit) :
    cancelFrom lookahead position gates = cancelFrom lookahead' position gates := by
  fun_induction cancelFrom lookahead position gates with
  | case1 => rw [cancelFrom]
  | case2 position g gs k hk ih =>
    -- the pair goes, and the list gets shorter
    have hle := List.length_eraseIdx_le gs k
    rw [List.length_cons] at h h' hend hend'
    rw [take_reach_of_length_lt h hend] at hk
    rw [cancelFrom, take_reach_of_length_lt h' hend', hk]
    exact ih (by omega) (by omega) (by omega) (by omega)
  | case3 position g gs hk ih =>
    rw [List.length_cons] at h h' hend hend'
    rw [take_reach_of_length_lt h hend] at hk
    rw [cancelFrom, take_reach_of_length_lt h' hend', hk]
    exact congrArg _ (ih (by omega) (by omega) (by omega) (by omega))

/-- **A larger window** shows the partner that a smaller one shows, if its end is an index, and
nothing otherwise. A window as long as the list shows every partner, if its end is an index, and
cancelling does not hang on the window then. -/
theorem findPartner_widen (gates : List (Gate α)) :
    (∀ {i j lookahead lookahead' : Nat}, lookahead ≤ lookahead' → lookahead' < Index.limit →
      findPartner lookahead gates i = some j → findPartner lookahead' gates i =
        if i + 1 + lookahead' < Index.limit then some j else none) ∧
    (∀ {lookahead : Nat}, gates.length ≤ lookahead → lookahead < Index.limit → ∀ i j,
      findPartner lookahead gates i = some j ↔
        IsPartner gates i j ∧ i + 1 + lookahead < Index.limit) ∧
    (∀ {lookahead lookahead' : Nat}, gates.length ≤ lookahead → gates.length ≤ lookahead' →
      gates.length + lookahead < Index.limit → gates.length + lookahead' < Index.limit →
      cancelInverses lookahead gates = cancelInverses lookahead' gates) := by
  refine ⟨fun {i j lookahead lookahead'} hle hlimit hfound => ?_,
    fun {lookahead} hlength hlimit i j => ?_, fun hlength hlength' hend hend' => ?_⟩
  · obtain ⟨hpartner, hwindow, -⟩ :=
      (findPartner_eq_some_iff (Nat.lt_of_le_of_lt hle hlimit)).1 hfound
    split
    · next hend => exact (findPartner_eq_some_iff hlimit).2 ⟨hpartner, by omega, hend⟩
    · next hend =>
      refine Option.eq_none_iff_forall_ne_some.2 fun j' hj' => hend ?_
      exact ((findPartner_eq_some_iff hlimit).1 hj').2.2
  · rw [findPartner_eq_some_iff hlimit]
    refine and_congr_right fun hpartner => and_iff_right ?_
    have hlt := hpartner.lt_length
    omega
  · exact cancelFrom_eq_of_length_le hlength hlength' (by omega) (by omega)

/-- Two negations of a qubit around a gate on another. -/
def negatedTwice : List (Gate Float) := [.plain .x [0], .plain .h [1], .plain .x [0]]

theorem findPartner_widen_negatedTwice :
    (findPartner 2 negatedTwice 0 = some 2 ∧ 2 ≤ 2 ^ 63 ∧ 2 ^ 63 < Index.limit ∧
      findPartner (2 ^ 63) negatedTwice 0 = some 2) ∧
    (negatedTwice.length ≤ 3 ∧ 3 < Index.limit ∧
      (findPartner 3 negatedTwice 0 = some 2 ↔
        IsPartner negatedTwice 0 2 ∧ 0 + 1 + 3 < Index.limit)) ∧
    (negatedTwice.length ≤ 2 ^ 63 ∧ negatedTwice.length + 2 ^ 63 < Index.limit ∧
      cancelInverses 3 negatedTwice = cancelInverses (2 ^ 63) negatedTwice) := by
  obtain ⟨hlarger, hall, hpass⟩ := findPartner_widen negatedTwice
  have hfound : findPartner 2 negatedTwice 0 = some 2 := by rfl
  exact ⟨⟨hfound, by decide, by decide, hlarger (by decide) (by decide) hfound⟩,
    ⟨by decide, by decide, hall (by decide) (by decide) 0 2⟩,
    ⟨by decide, by decide, hpass (by decide) (by decide) (by decide) (by decide)⟩⟩

/-- The largest window shows less than a window of one gate: its end wraps around. -/
theorem not_widens_largest :
    ¬ ∀ (gates : List (Gate Float)) (i j lookahead lookahead' : Nat), lookahead ≤ lookahead' →
      lookahead' < Index.limit → findPartner lookahead gates i = some j →
        findPartner lookahead' gates i = some j := by
  intro h
  have hlost := h [.plain .x [0], .plain .x [0]] 0 1 1 (Index.limit - 1) (by decide) (by decide) rfl
  cases hlost

end QuantumWorkbench.Simplification
