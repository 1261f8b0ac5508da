import Mathlib
import QuantumWorkbench.Circuit.Depth
import QuantumWorkbench.Proofs.SortedMap

/-!
# Depth by levels

A gate puts its qubits one level above the highest of them. Read as a map from qubits to levels this
is monotone: raising the levels that gates start from never lowers the depth, gates on different
qubits raise them independently, and a gate that is left out only lowers what comes after it.
-/

namespace QuantumWorkbench

namespace Gate

/-! ## Levels as a map -/

/-- The level of a gate on some qubits. -/
def levelOn (f : ℕ → ℕ) (qs : List ℕ) : ℕ := (qs.map f).foldl max 0 + 1

/-- The levels after a gate on some qubits. -/
def raiseOn (f : ℕ → ℕ) (qs : List ℕ) : ℕ → ℕ := fun q => if q ∈ qs then levelOn f qs else f q

variable {f f' : ℕ → ℕ} {qs ps : List ℕ}

theorem levelOn_le_iff {n : ℕ} : levelOn f qs ≤ n + 1 ↔ ∀ q ∈ qs, f q ≤ n := by
  have hfold (m : ℕ) : (qs.map f).foldl max m ≤ n ↔ m ≤ n ∧ ∀ q ∈ qs, f q ≤ n := by
    induction qs generalizing m with
    | nil => simp
    | cons q qs ih =>
      rw [List.map_cons, List.foldl_cons, ih, List.forall_mem_cons, max_le_iff, and_assoc]
  rw [levelOn, Nat.add_le_add_iff_right, hfold]
  exact and_iff_right n.zero_le

theorem lt_levelOn {q : ℕ} (hq : q ∈ qs) : f q < levelOn f qs :=
  Nat.lt_succ_of_le (levelOn_le_iff.1 le_rfl q hq)

theorem levelOn_mono (h : f ≤ f') : levelOn f qs ≤ levelOn f' qs :=
  levelOn_le_iff.2 fun q hq => (h q).trans (Nat.le_of_lt_succ (lt_levelOn hq))

theorem levelOn_congr (h : ∀ q ∈ qs, f q = f' q) : levelOn f qs = levelOn f' qs := by
  rw [levelOn, levelOn, List.map_congr_left h]

theorem le_raiseOn (f : ℕ → ℕ) (qs : List ℕ) : f ≤ raiseOn f qs := by
  intro q
  unfold raiseOn
  split
  · next hq => exact (lt_levelOn hq).le
  · exact le_rfl

theorem raiseOn_mono (h : f ≤ f') : raiseOn f qs ≤ raiseOn f' qs := by
  intro q
  unfold raiseOn
  split
  · exact levelOn_mono h
  · exact h q

theorem levelOn_raiseOn_of_disjoint (h : qs.Disjoint ps) :
    levelOn (raiseOn f qs) ps = levelOn f ps := by
  apply levelOn_congr
  intro q hq
  exact if_neg fun hq' => h hq' hq

/-- Gates on different qubits raise their levels in any order. -/
theorem raiseOn_comm (h : qs.Disjoint ps) :
    raiseOn (raiseOn f qs) ps = raiseOn (raiseOn f ps) qs := by
  funext q
  simp only [raiseOn, levelOn_raiseOn_of_disjoint h, levelOn_raiseOn_of_disjoint h.symm]
  by_cases hqs : q ∈ qs
  · rw [if_neg (h hqs), if_pos hqs, if_pos hqs]
  · rw [if_neg hqs, if_neg hqs]

/-! ## Depth from levels -/

/-- The highest level among gates, from given levels on. -/
def depthOn (f : ℕ → ℕ) : List (List ℕ) → ℕ
  | [] => 0
  | qs :: rest => max (levelOn f qs) (depthOn (raiseOn f qs) rest)

theorem depthOn_mono {rest : List (List ℕ)} (h : f ≤ f') : depthOn f rest ≤ depthOn f' rest := by
  induction rest generalizing f f' with
  | nil => exact le_rfl
  | cons qs rest ih => exact max_le_max (levelOn_mono h) (ih (raiseOn_mono h))

/-- What is left out deepens nothing. -/
theorem depthOn_le_cons (qs : List ℕ) (rest : List (List ℕ)) :
    depthOn f rest ≤ depthOn f (qs :: rest) :=
  (depthOn_mono (le_raiseOn f qs)).trans (le_max_right _ _)

theorem depthOn_exchange (h : qs.Disjoint ps) (rest : List (List ℕ)) :
    depthOn f (ps :: qs :: rest) = depthOn f (qs :: ps :: rest) := by
  rw [depthOn, depthOn, depthOn, depthOn, levelOn_raiseOn_of_disjoint h,
    levelOn_raiseOn_of_disjoint h.symm, raiseOn_comm h, max_left_comm]

/-- Gates in front of a change pass it on. -/
theorem depthOn_append_le {part part' : List (List ℕ)}
    (h : ∀ f, depthOn f part' ≤ depthOn f part) (before : List (List ℕ)) :
    depthOn f (before ++ part') ≤ depthOn f (before ++ part) := by
  induction before generalizing f with
  | nil => exact h f
  | cons qs before ih => exact max_le_max le_rfl ih

/-! ## Levels in an array -/

variable {α : Type}

/-- One level written at several places of an array. -/
theorem writeLevel_spec (level : ℕ) (qs : List ℕ) (levels : Levels)
    (hqs : ∀ q ∈ qs, q < levels.size) :
    (qs.foldl (fun acc q => acc.setIfInBounds q level) levels).size = levels.size ∧
      ∀ q, (qs.foldl (fun acc q => acc.setIfInBounds q level) levels).getD q 0 =
        if q ∈ qs then level else levels.getD q 0 := by
  induction qs generalizing levels with
  | nil => exact ⟨rfl, fun q => (if_neg List.not_mem_nil).symm⟩
  | cons p qs ih =>
    obtain ⟨hp, hqs⟩ := List.forall_mem_cons.1 hqs
    have hsize : (levels.setIfInBounds p level).size = levels.size := Array.size_setIfInBounds
    obtain ⟨hsize', hget⟩ := ih (levels.setIfInBounds p level) (by rwa [hsize])
    refine ⟨hsize'.trans hsize, fun q => ?_⟩
    rw [List.foldl_cons, hget]
    -- a qubit named again later takes the same level, so the first write does not matter
    by_cases hq : q ∈ qs
    · rw [if_pos hq, if_pos (List.mem_cons_of_mem p hq)]
    · by_cases hqp : q = p
      · subst hqp
        simp [hq, hp]
      · simp [hq, hqp, Ne.symm hqp]

theorem depthFrom_eq (levels : Levels) {gates : List (Gate α)}
    (hgates : ∀ g ∈ gates, ∀ q ∈ g.qubits, q < levels.size) :
    depthFrom levels gates = depthOn (fun q => levels.getD q 0) (gates.map Gate.qubits) := by
  induction gates generalizing levels with
  | nil => rfl
  | cons g gs ih =>
    obtain ⟨hg, hgs⟩ := List.forall_mem_cons.1 hgates
    obtain ⟨hsize, hget⟩ := writeLevel_spec (level levels g) g.qubits levels hg
    have hraise : (fun q => (raise levels g).getD q 0) =
        raiseOn (fun q => levels.getD q 0) g.qubits := funext hget
    rw [depthFrom, ih (raise levels g) (by rwa [raise, hsize]), hraise]
    rfl

end Gate

namespace Circuit

variable {α : Type} {c : Circuit α}

/-- **The depth of a circuit** whose gates lie in its register, from the qubits of its gates. -/
theorem depth_eq (hinside : ∀ g ∈ c.gates, ∀ q ∈ g.qubits, q < c.width) :
    c.depth = Gate.depthOn (fun _ => 0) (c.gates.map Gate.qubits) := by
  have hzero : (fun q => (Array.replicate c.width 0).getD q 0) = fun _ => 0 := by
    funext q
    rw [Array.getD_eq_getD_getElem?, Array.getElem?_replicate]
    split <;> rfl
  rw [depth, Gate.depthFrom_eq _ (by rwa [Array.size_replicate]), hzero]

/-! ## Counts -/

/-- **The count of a name** is the number of gates with that name. -/
theorem getD_gateCounts (c : Circuit α) (name : String) :
    (c.gateCounts.get? name).getD 0 = c.gates.countP fun g => g.kind.name = name := by
  -- from any counts on, so that the induction can take the table along
  have hfold (gates : List (Gate α)) (m : SortedMap String ℕ) :
      ((gates.foldl (fun m g => m.update g.kind.name fun old => old.getD 0 + 1) m).get?
        name).getD 0 = (m.get? name).getD 0 + gates.countP fun g => g.kind.name = name := by
    induction gates generalizing m with
    | nil => rfl
    | cons g gs ih =>
      rw [List.foldl_cons, ih, List.countP_cons]
      by_cases hname : g.kind.name = name
      · rw [hname, SortedMap.get?_update_self]
        simp
        omega
      · rw [SortedMap.get?_update_of_ne _ (Ne.symm hname)]
        simp [hname]
  have hcounts := hfold c.gates .empty
  rwa [SortedMap.get?_empty, Option.getD_none, Nat.zero_add] at hcounts

end Circuit

end QuantumWorkbench
