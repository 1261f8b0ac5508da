import Mathlib
import QuantumWorkbench.Proofs.Simplification.History

/-!
# The longest chain of gates

The levels of a circuit measure its chains: rows of gates, in the order of the circuit, each of
which has a qubit in common with the next. From given levels on, a chain reaches the level of its
first gate and one more for each gate after it; the depth is the highest level that a chain reaches.
-/

namespace QuantumWorkbench

namespace Gate

variable {f f' : ℕ → ℕ} {qs ps : List ℕ} {rest chain : List (List ℕ)}

/-! ## How high a chain reaches -/

/-- Two gates, by their qubits, have a qubit in common. -/
def Meet (qs ps : List ℕ) : Prop := ∃ q, q ∈ qs ∧ q ∈ ps

/-- A row of gates of a list, each of which meets the next. -/
structure IsChainIn (rest chain : List (List ℕ)) : Prop where
  sublist : chain.Sublist rest
  linked : chain.IsChain Meet

/-- The level that a chain reaches from given levels on. -/
def reached (f : ℕ → ℕ) : List (List ℕ) → ℕ
  | [] => 0
  | qs :: chain => levelOn f qs + chain.length

theorem reached_mono (h : f ≤ f') : reached f chain ≤ reached f' chain := by
  cases chain with
  | nil => exact le_rfl
  | cons qs chain => exact Nat.add_le_add_right (levelOn_mono h) _

theorem levelOn_lt_of_meet (h : Meet qs ps) : levelOn f qs < levelOn (raiseOn f qs) ps := by
  obtain ⟨q, hqs, hps⟩ := h
  calc levelOn f qs = raiseOn f qs q := (if_pos hqs).symm
    _ < levelOn (raiseOn f qs) ps := lt_levelOn hps

/-- A gate stands where it would without the gate before it, or right above that gate. -/
theorem levelOn_raiseOn_cases (f : ℕ → ℕ) (qs ps : List ℕ) :
    levelOn (raiseOn f qs) ps ≤ levelOn f ps ∨
      (Meet qs ps ∧ levelOn (raiseOn f qs) ps ≤ levelOn f qs + 1) := by
  by_cases hmeet : Meet qs ps
  · by_cases hlow : levelOn f ps ≤ levelOn f qs + 1
    · -- no qubit of the gate stands higher than the gate before it
      refine Or.inr ⟨hmeet, levelOn_le_iff.2 fun q hq => ?_⟩
      unfold raiseOn
      split
      · exact le_rfl
      · exact levelOn_le_iff.1 hlow q hq
    · refine Or.inl (levelOn_le_iff.2 fun q hq => ?_)
      unfold raiseOn
      split
      · exact Nat.le_of_succ_le (Nat.le_of_lt_succ (Nat.lt_of_not_le hlow))
      · exact Nat.le_of_lt_succ (lt_levelOn hq)
  · refine Or.inl (levelOn_le_iff.2 fun q hq => ?_)
    rw [raiseOn, if_neg fun hqs => hmeet ⟨q, hqs, hq⟩]
    exact Nat.le_of_lt_succ (lt_levelOn hq)

/-! ## Depth from chains -/

/-- No chain reaches higher than the depth. -/
theorem reached_le_depthOn (h : IsChainIn rest chain) : reached f chain ≤ depthOn f rest := by
  induction rest generalizing f chain with
  | nil =>
    rw [List.sublist_nil.1 h.sublist]
    exact le_rfl
  | cons qs rest ih =>
    rw [depthOn]
    cases h.sublist with
    | cons _ hsub =>
      -- the first gate is not in the chain
      exact (reached_mono (le_raiseOn f qs)).trans
        ((ih ⟨hsub, h.linked⟩).trans (le_max_right _ _))
    | cons_cons _ hsub =>
      next chain =>
      cases chain with
      | nil => exact le_max_left _ _
      | cons ps chain =>
        obtain ⟨hmeet, hlinked⟩ := List.isChain_cons_cons.1 h.linked
        refine le_max_of_le_right (le_trans ?_ (ih ⟨hsub, hlinked⟩))
        have hlevel := levelOn_lt_of_meet (f := f) hmeet
        rw [reached, reached, List.length_cons]
        omega

/-- Some chain reaches the depth. -/
theorem exists_reached_eq_depthOn (f : ℕ → ℕ) (rest : List (List ℕ)) :
    ∃ chain, IsChainIn rest chain ∧ depthOn f rest ≤ reached f chain := by
  induction rest generalizing f with
  | nil => exact ⟨[], ⟨List.Sublist.refl _, .nil⟩, le_rfl⟩
  | cons qs rest ih =>
    have halone : IsChainIn (qs :: rest) [qs] :=
      ⟨List.singleton_sublist.2 List.mem_cons_self, .singleton qs⟩
    obtain ⟨chain, hchain, hdepth⟩ := ih (raiseOn f qs)
    cases chain with
    | nil => exact ⟨[qs], halone, max_le le_rfl (hdepth.trans (Nat.zero_le _))⟩
    | cons ps chain =>
      rcases levelOn_raiseOn_cases f qs ps with hsame | ⟨hmeet, habove⟩
      · -- the chain reaches as high without the first gate, unless that gate stands higher
        rcases le_total (levelOn f qs) (reached f (ps :: chain)) with hle | hle
        · refine ⟨ps :: chain, ⟨hchain.sublist.cons qs, hchain.linked⟩, max_le hle ?_⟩
          exact hdepth.trans (Nat.add_le_add_right hsame _)
        · refine ⟨[qs], halone, max_le le_rfl (hdepth.trans ?_)⟩
          exact (Nat.add_le_add_right hsame _).trans hle
      · -- the first gate comes before the chain
        refine ⟨qs :: ps :: chain, ⟨hchain.sublist.cons_cons qs,
          List.isChain_cons_cons.2 ⟨hmeet, hchain.linked⟩⟩, max_le (Nat.le_add_right _ _) ?_⟩
        refine hdepth.trans ?_
        rw [reached, reached, List.length_cons]
        omega

theorem reached_zero (chain : List (List ℕ)) : reached (fun _ => 0) chain = chain.length := by
  cases chain with
  | nil => rfl
  | cons qs chain =>
    have hfirst : levelOn (fun _ => 0) qs ≤ 0 + 1 := levelOn_le_iff.2 fun _ _ => le_rfl
    have hlevel : levelOn (fun _ => 0) qs = 1 := le_antisymm hfirst (Nat.le_add_left _ _)
    rw [reached, hlevel, List.length_cons, Nat.add_comm]

/-- **The depth of gates** on fresh qubits is the length of their longest chain. -/
theorem isGreatest_depthOn (rest : List (List ℕ)) :
    IsGreatest {n | ∃ chain, IsChainIn rest chain ∧ chain.length = n}
      (depthOn (fun _ => 0) rest) := by
  have hbound {chain : List (List ℕ)} (hchain : IsChainIn rest chain) :
      chain.length ≤ depthOn (fun _ => 0) rest := by
    rw [← reached_zero chain]
    exact reached_le_depthOn hchain
  refine ⟨?_, ?_⟩
  · obtain ⟨chain, hchain, hdepth⟩ := exists_reached_eq_depthOn (fun _ => 0) rest
    rw [reached_zero] at hdepth
    exact ⟨chain, hchain, le_antisymm (hbound hchain) hdepth⟩
  · rintro n ⟨chain, hchain, rfl⟩
    exact hbound hchain

end Gate

namespace Circuit

variable {α : Type} {c : Circuit α}

/-! ## Chains of positions -/

/-- Positions of gates in the order of a circuit, each gate with a qubit in common with the next. -/
structure Chained (c : Circuit α) (positions : List (Fin c.gates.length)) : Prop where
  ascending : positions.Pairwise (· < ·)
  linked : positions.IsChain fun i j => ∃ q, q ∈ c.gates[i].qubits ∧ q ∈ c.gates[j].qubits

theorem Chained.isChainIn {positions : List (Fin c.gates.length)} (h : c.Chained positions) :
    Gate.IsChainIn (c.gates.map Gate.qubits) (positions.map fun i => c.gates[i].qubits) := by
  refine ⟨?_, (List.isChain_map _).2 h.linked⟩
  have hsub := (List.map_getElem_sublist h.ascending).map Gate.qubits
  rwa [List.map_map] at hsub

theorem exists_chained {chain : List (List ℕ)}
    (h : Gate.IsChainIn (c.gates.map Gate.qubits) chain) :
    ∃ positions : List (Fin c.gates.length), c.Chained positions ∧
      positions.length = chain.length := by
  obtain ⟨gates, hsub, rfl⟩ := List.sublist_map_iff.1 h.sublist
  obtain ⟨positions, rfl, hascending⟩ := List.sublist_eq_map_getElem hsub
  refine ⟨positions, ⟨hascending, ?_⟩, by simp⟩
  have hlinked := h.linked
  rwa [List.map_map, List.isChain_map] at hlinked

theorem isGreatest_depth (hinside : c.inRegister = true) :
    IsGreatest {n | ∃ positions, c.Chained positions ∧ positions.length = n} c.depth := by
  have hgates : ∀ g ∈ c.gates, ∀ q ∈ g.qubits, q < c.width := by simpa [inRegister] using hinside
  rw [depth_eq hgates]
  obtain ⟨⟨chain, hchain, hlength⟩, hbound⟩ := Gate.isGreatest_depthOn (c.gates.map Gate.qubits)
  refine ⟨?_, ?_⟩
  · obtain ⟨positions, hpositions, hsame⟩ := exists_chained hchain
    exact ⟨positions, hpositions, hsame.trans hlength⟩
  · rintro n ⟨positions, hpositions, rfl⟩
    exact hbound ⟨_, hpositions.isChainIn, List.length_map _⟩

/-- **The depth of a circuit** whose gates lie in its register is the length of its longest chain of
gates, and stays when neighbouring gates without a common qubit trade places. -/
theorem depth_longest [Scalar α] (hinside : c.inRegister = true) :
    (∃ n, c.depth? = some n ∧
      IsGreatest {m | ∃ positions, c.Chained positions ∧ positions.length = m} n) ∧
    ∀ (before : List (Gate α)) (a b : Gate α) (after : List (Gate α)),
      c.gates = before ++ a :: b :: after → a.qubits.Disjoint b.qubits →
        (c.withGates (before ++ b :: a :: after)).depth? = c.depth? := by
  refine ⟨⟨c.depth, if_pos hinside, isGreatest_depth hinside⟩,
    fun before a b after hgates hapart => ?_⟩
  rw [(Simplification.SameHistories.exchange hapart before after).depth?_eq c, ← hgates]
  rfl

/-- Controlled negations down a register, with gates on its last qubit between them. -/
def staircase : Circuit Float :=
  (blank 4 4).appendGates
    [.plain .cnot [0, 1], .plain .x [3], .plain .cnot [1, 2], .plain .h [3], .plain .cnot [2, 3]]

theorem depth_longest_staircase :
    staircase.inRegister = true ∧
    (∃ n, staircase.depth? = some n ∧
      IsGreatest {m | ∃ positions, staircase.Chained positions ∧ positions.length = m} n) ∧
    (staircase.withGates [.plain .x [3], .plain .cnot [0, 1], .plain .cnot [1, 2], .plain .h [3],
      .plain .cnot [2, 3]]).depth? = staircase.depth? := by
  obtain ⟨hgreatest, hexchange⟩ := depth_longest (c := staircase) rfl
  exact ⟨rfl, hgreatest, hexchange [] _ _ _ rfl (by simp [Gate.plain])⟩

example : staircase.depth? = some 3 := by rfl

end Circuit

end QuantumWorkbench
