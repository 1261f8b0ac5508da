import Mathlib
import QuantumWorkbench.Proofs.Gate.Fidelity
import QuantumWorkbench.Proofs.Simplification.Settling

/-!
# Optimizing twice

The standard pipeline stops after thirty-two sweeps, whether its gates have settled or not. So a
second run keeps a result exactly where a sweep reports it as unchanged. A narrow gate behind a
block of wide gates moves forward by one place in each sweep; behind more than thirty-two of them it
is still on its way when the first run ends.
-/

namespace QuantumWorkbench.Simplification

open Gate

variable {α : Type} [Scalar α]

/-! ## Sweeps of the standard passes -/

/-- A sweep of constructed gates gives constructed gates. -/
theorem Swept.built {gates fused gates' : List (Gate α)} {changed : Bool}
    (h : Swept gates fused gates' changed) (hgates : ∀ g ∈ gates, g.Built) :
    ∀ g ∈ gates', g.Built := by
  intro g hg
  rw [h.result] at hg
  have hfused : g ∈ fused := (cancelFrom_sublist defaultLookahead 0 fused).subset
    ((reorder_perm _).subset hg)
  exact h.fusing.forall_mem mergeClosed_built (held_empty _)
    (fun g hg => hgates g (List.mem_of_mem_filter hg)) g hfused

/-- A sweep that reports no change leaves a list that stays as it is. -/
theorem still_of_sweep {gates gates' : List (Gate α)} {counts counts' : List PassCount}
    (hcounts : counts.map (·.pass) = standardPasses) (hgates : ∀ g ∈ gates, g.Built)
    (h : sweep gates counts = .ok (gates', counts', false)) : Still gates ∧ gates' = gates := by
  have hwell := wellFormed_of_built hgates
  obtain ⟨fused, hswept⟩ := swept_of_sweep hcounts hwell h
  obtain ⟨-, rfl⟩ := hswept.settled hwell
  exact ⟨fun others hothers => sweep_congr (hothers.trans hcounts.symm) h, rfl⟩

/-- A still list passes for equal to itself. -/
theorem Still.beq_self {gates : List (Gate α)} (h : Still gates) (hgates : ∀ g ∈ gates, g.Built) :
    (gates == gates) = true := by
  obtain ⟨counts', hsweep⟩ := h (standardPasses.map fun p => ⟨p, 0, 0⟩) rfl
  have hwell := wellFormed_of_built hgates
  obtain ⟨fused, hswept⟩ := swept_of_sweep rfl hwell hsweep
  rcases hswept.below hwell with hbelow | ⟨-, -, hchanged⟩
  · exact absurd hbelow Below.irrefl
  · exact hchanged.1 rfl

/-- **Sweeps lead to a list below**, or nowhere; where sweeps are left over the list is still. -/
theorem below_of_sweeps {n used : Nat} {gates gates' : List (Gate α)}
    {counts counts' : List PassCount} (hcounts : counts.map (·.pass) = standardPasses)
    (hgates : ∀ g ∈ gates, g.Built) (h : sweeps n gates counts = .ok (gates', counts', used)) :
    (Below gates' gates ∨ gates' = gates) ∧ (∀ g ∈ gates', g.Built) ∧
      (used < n → Still gates') := by
  induction n generalizing gates counts used with
  | zero =>
    cases h
    exact ⟨Or.inr rfl, hgates, fun hlt => absurd hlt (Nat.lt_irrefl 0)⟩
  | succ n ih =>
    rcases sweeps_succ_eq_ok.1 h with ⟨hsweep, -⟩ | ⟨gates₁, counts₁, rest, hsweep, hsweeps, rfl⟩
    · -- the first sweep reports no change
      obtain ⟨hstill, rfl⟩ := still_of_sweep hcounts hgates hsweep
      exact ⟨Or.inr rfl, hgates, fun _ => hstill⟩
    · have hwell := wellFormed_of_built hgates
      obtain ⟨fused, hswept⟩ := swept_of_sweep hcounts hwell hsweep
      obtain ⟨hlater, hbuilt, hstill⟩ :=
        ih ((passes_of_sweep hsweep).1.trans hcounts) (hswept.built hgates) hsweeps
      refine ⟨?_, hbuilt, fun hlt => hstill (by omega)⟩
      rcases hswept.below hwell with hfirst | ⟨-, rfl, -⟩
      · rcases hlater with hlater | rfl
        · exact Or.inl (hlater.trans hfirst)
        · exact Or.inl hfirst
      · exact hlater

/-- Sweeps that end in an equal list started from a still one. -/
theorem still_of_sweeps {n used : Nat} {gates gates' : List (Gate α)}
    {counts counts' : List PassCount} (hcounts : counts.map (·.pass) = standardPasses)
    (hgates : ∀ g ∈ gates, g.Built)
    (h : sweeps (n + 1) gates counts = .ok (gates', counts', used))
    (hsame : (gates' == gates) = true) : Still gates := by
  have hnot : ¬ Below gates' gates := fun hbelow => by
    rw [hbelow.beq_eq_false] at hsame
    cases hsame
  obtain ⟨hend, -, -⟩ := below_of_sweeps hcounts hgates h
  obtain rfl : gates' = gates := hend.resolve_left hnot
  rcases sweeps_succ_eq_ok.1 h with ⟨hsweep, -⟩ | ⟨gates₁, counts₁, rest, hsweep, hsweeps, -⟩
  · exact (still_of_sweep hcounts hgates hsweep).1
  · have hwell := wellFormed_of_built hgates
    obtain ⟨fused, hswept⟩ := swept_of_sweep hcounts hwell hsweep
    rcases hswept.below hwell with hfirst | ⟨-, -, hchanged⟩
    · -- the sweeps after the first cannot come back up
      obtain ⟨hlater, -, -⟩ := below_of_sweeps ((passes_of_sweep hsweep).1.trans hcounts)
        (hswept.built hgates) hsweeps
      rcases hlater with hlater | rfl
      · exact absurd (hlater.trans hfirst) hnot
      · exact absurd hfirst hnot
    · exact absurd (hchanged.2 hsame) (by decide)

/-! ## A narrow gate behind wide gates -/

/-- A controlled exchange between the first two qubits, one way or the other. -/
def wide (forward : Bool) : Gate α := Gate.plain .cnot (if forward then [0, 1] else [1, 0])

/-- A gate on the third qubit. -/
def narrow : Gate α := Gate.plain .x [2]

/-- Wide gates of alternating direction. -/
def alternating (forward : Bool) : Nat → List (Gate α)
  | 0 => []
  | n + 1 => wide forward :: alternating (!forward) n

/-- Wide gates of alternating direction, with the narrow gate behind the first `i` of them. -/
def blocked (forward : Bool) : Nat → Nat → List (Gate α)
  | 0, m => narrow :: alternating forward m
  | i + 1, m => wide forward :: blocked (!forward) i m

theorem carry_alternating (forward : Bool) (m : Nat) :
    carry (wide forward : Gate α) (alternating (!forward) m) =
      (alternating forward (m + 1), 0) := by
  induction m generalizing forward with
  | zero => rfl
  | succ m ih =>
    have hrest := ih (!forward)
    rw [alternating, carry, if_neg (by cases forward <;> simp [wide, width, plain]), hrest]
    rfl

/-- **A walk moves the narrow gate forward by one place**. -/
theorem carry_blocked (forward : Bool) (i m : Nat) :
    carry (wide forward : Gate α) (blocked (!forward) i m) = (blocked forward i (m + 1), 1) := by
  induction i generalizing forward with
  | zero =>
    rw [blocked, carry, if_pos (by cases forward <;> rfl), carry_alternating]
    rfl
  | succ i ih =>
    have hrest := ih (!forward)
    rw [blocked, carry, if_neg (by cases forward <;> simp [wide, width, plain]), hrest]
    rfl

/-! ### No other pass applies -/

theorem partnerIn_wide_alternating (forward : Bool) (m window : Nat) :
    partnerIn (wide forward : Gate α) ((alternating (!forward) m).take window) = none := by
  cases m with
  | zero => rw [alternating, List.take_nil, partnerIn]
  | succ m =>
    cases window with
    | zero => rfl
    | succ window => cases forward <;> rfl

theorem partnerIn_wide_blocked (forward : Bool) (i m window : Nat) :
    partnerIn (wide forward : Gate α) ((blocked (!forward) i m).take window) = none := by
  cases window with
  | zero => rfl
  | succ window =>
    cases i with
    | zero =>
      -- the search goes past the narrow gate and ends at the next wide one
      have hrest := partnerIn_wide_alternating (α := α) forward m window
      have hinverse : ¬ (wide forward : Gate α).isInverseOf narrow = true := by
        cases forward <;> exact Bool.false_ne_true
      have hcommutes : (wide forward : Gate α).commutes narrow = true := by
        cases forward <;> rfl
      rw [blocked, List.take_succ_cons, partnerIn, if_neg hinverse, if_pos hcommutes, hrest]
      rfl
    | succ i => cases forward <;> rfl

theorem partnerIn_narrow (forward : Bool) (m window : Nat) :
    partnerIn (narrow : Gate α) ((alternating forward m).take window) = none := by
  induction m generalizing forward window with
  | zero => rw [alternating, List.take_nil, partnerIn]
  | succ m ih =>
    cases window with
    | zero => rfl
    | succ window =>
      have hinverse : ¬ (narrow : Gate α).isInverseOf (wide forward) = true := by
        cases forward <;> exact Bool.false_ne_true
      have hcommutes : (narrow : Gate α).commutes (wide forward) = true := by
        cases forward <;> rfl
      rw [alternating, List.take_succ_cons, partnerIn, if_neg hinverse, if_pos hcommutes, ih]
      rfl

theorem cancelFrom_cons_of_eq_none {lookahead position : Nat} {g : Gate α} {gs : List (Gate α)}
    (h : partnerIn g (gs.take (reach lookahead position)) = none) :
    cancelFrom lookahead position (g :: gs) = g :: cancelFrom lookahead (position + 1) gs := by
  rw [cancelFrom, h]

theorem cancelFrom_alternating (lookahead position : Nat) (forward : Bool) (m : Nat) :
    cancelFrom lookahead position (alternating forward m : List (Gate α)) =
      alternating forward m := by
  induction m generalizing forward position with
  | zero => rw [alternating, cancelFrom]
  | succ m ih =>
    rw [alternating, cancelFrom_cons_of_eq_none (partnerIn_wide_alternating forward m _), ih]

theorem cancelFrom_blocked (lookahead position : Nat) (forward : Bool) (i m : Nat) :
    cancelFrom lookahead position (blocked forward i m : List (Gate α)) = blocked forward i m := by
  induction i generalizing forward position with
  | zero =>
    rw [blocked, cancelFrom_cons_of_eq_none (partnerIn_narrow forward m _), cancelFrom_alternating]
  | succ i ih =>
    rw [blocked, cancelFrom_cons_of_eq_none (partnerIn_wide_blocked forward i m _), ih]

theorem forall_mem_blocked {P : Gate α → Prop} (hwide : ∀ forward, P (wide forward))
    (hnarrow : P narrow) (forward : Bool) (i m : Nat) : ∀ g ∈ blocked forward i m, P g := by
  have halternating (forward : Bool) : ∀ g ∈ alternating forward m, P g := by
    induction m generalizing forward with
    | zero => exact fun _ hg => by cases hg
    | succ m ih => exact List.forall_mem_cons.2 ⟨hwide forward, ih (!forward)⟩
  induction i generalizing forward with
  | zero => exact List.forall_mem_cons.2 ⟨hnarrow, halternating forward⟩
  | succ i ih => exact List.forall_mem_cons.2 ⟨hwide forward, ih (!forward)⟩

theorem fuse_eq_self {gates : List (Gate α)} (h : ∀ g ∈ gates, g.isRotation = false) :
    fuse gates = .ok gates := by
  unfold fuse
  induction gates with
  | nil => rfl
  | cons g gs ih =>
    obtain ⟨hg, hgs⟩ := List.forall_mem_cons.1 h
    rw [fuseFrom_release hg, ih hgs]
    rfl

/-- A sweep of a list that only reordering changes. -/
theorem sweep_of_reorder {gates moved : List (Gate α)} {swaps : Nat} {counts : List PassCount}
    (hcounts : counts.map (·.pass) = standardPasses) (hdrop : dropDead gates = gates)
    (hfuse : fuse gates = .ok gates) (hcancel : cancelInverses defaultLookahead gates = gates)
    (hreorder : reorder gates = (moved, swaps)) (hswaps : (swaps != 0) = true) :
    ∃ counts', sweep gates counts = .ok (moved, counts', true) := by
  have hdrop' : Pass.dropDead.apply gates = .ok (gates, gates.length != gates.length) := by
    rw [Pass.apply, hdrop]
  have hfuse' : Pass.fuse.apply gates = .ok (gates, gates != gates) := by
    rw [Pass.apply, hfuse]
    rfl
  have hcancel' : (Pass.cancelInverses defaultLookahead).apply gates =
      .ok (gates, gates.length != gates.length) := by
    rw [Pass.apply, hcancel]
  have hreorder' : Pass.reorder.apply gates = .ok (moved, true) := by
    rw [Pass.apply, hreorder, ← hswaps]
  have hsweep : ∃ counts', sweep gates (standardPasses.map fun p => ⟨p, 0, 0⟩) =
      .ok (moved, counts', true) :=
    ⟨_, sweep_cons_eq_ok.2 ⟨_, _, _, _, hdrop', sweep_cons_eq_ok.2 ⟨_, _, _, _, hfuse',
      sweep_cons_eq_ok.2 ⟨_, _, _, _, hcancel', sweep_cons_eq_ok.2 ⟨_, _, _, _, hreorder',
        rfl, rfl, rfl⟩, rfl, rfl⟩, rfl, rfl⟩, rfl, by simp⟩⟩
  obtain ⟨_, hsweep⟩ := hsweep
  exact sweep_congr (hcounts.trans rfl) hsweep

/-- **One sweep moves the narrow gate forward by one place** and reports a change. -/
theorem sweep_blocked (forward : Bool) (i m : Nat) {counts : List PassCount}
    (hcounts : counts.map (·.pass) = standardPasses) :
    ∃ counts', sweep (blocked forward (i + 1) m : List (Gate α)) counts =
      .ok (blocked forward i (m + 1), counts', true) := by
  have hgates : ∀ g ∈ (blocked forward (i + 1) m : List (Gate α)),
      isDead g = false ∧ g.isRotation = false := by
    refine forall_mem_blocked (fun forward => ?_) ⟨rfl, rfl⟩ forward (i + 1) m
    cases forward <;> exact ⟨rfl, rfl⟩
  have halive : dropDead (blocked forward (i + 1) m : List (Gate α)) = blocked forward (i + 1) m :=
    List.filter_eq_self.2 fun g hg => by rw [(hgates g hg).1]; rfl
  exact sweep_of_reorder hcounts halive (fuse_eq_self fun g hg => (hgates g hg).2)
    (cancelFrom_blocked defaultLookahead 0 forward (i + 1) m) (carry_blocked forward i m) rfl

theorem sweeps_blocked (forward : Bool) (n i m : Nat) {counts : List PassCount}
    (hcounts : counts.map (·.pass) = standardPasses) :
    ∃ counts', sweeps n (blocked forward (i + n) m : List (Gate α)) counts =
      .ok (blocked forward i (m + n), counts', n) := by
  induction n generalizing m counts with
  | zero => exact ⟨counts, rfl⟩
  | succ n ih =>
    obtain ⟨counts₁, hsweep⟩ := sweep_blocked (α := α) forward (i + n) m hcounts
    obtain ⟨counts', hsweeps⟩ := ih (m + 1) ((passes_of_sweep hsweep).1.trans hcounts)
    refine ⟨counts', sweeps_succ_eq_ok.2 (Or.inr ⟨_, counts₁, n, hsweep, ?_, rfl⟩)⟩
    rw [hsweeps, Nat.add_assoc, Nat.add_comm 1 n]

/-- **A run uses up its sweeps** where the narrow gate is behind that many wide ones, and leaves it
as many places further in front. -/
theorem run_blocked {c : Circuit α} {forward : Bool} {i m : Nat} (maxSweeps : Nat)
    (hc : c.gates = blocked forward (i + maxSweeps) m) :
    ∃ o, run standardPasses maxSweeps c = .ok o ∧ o.iterations = maxSweeps ∧
      o.circuit.gates = blocked forward i (m + maxSweeps) := by
  have hpasses : (standardPasses.map fun p => (⟨p, 0, 0⟩ : PassCount)).map (·.pass) =
    standardPasses := rfl
  obtain ⟨counts, hsweeps⟩ := sweeps_blocked (α := α) forward maxSweeps i m hpasses
  exact ⟨_, run_eq_ok.2 ⟨_, counts, maxSweeps, hc ▸ hsweeps, rfl⟩, rfl, rfl⟩

/-! ## The second run -/

/-- A still circuit that was optimized before is returned as it is. -/
theorem optimize_of_still {c : Circuit α} (hstill : Still c.gates) (hoptimized : c.optimized = true)
    (hfidelity : c.fidelity = Circuit.fidelityOf c.gates) : optimize c = .ok c := by
  obtain ⟨counts', hsweep⟩ := hstill (standardPasses.map fun p => ⟨p, 0, 0⟩) rfl
  -- no pass counts a modification, so no name is added to those of the circuit
  have hnone : (counts'.filter fun count => count.modifications != 0) = [] := by
    have hzero := (passes_of_sweep hsweep).2 rfl
    apply List.filter_eq_nil_iff.2
    intro count hcount
    have hmem : count.modifications ∈ counts'.map (·.modifications) :=
      List.mem_map_of_mem hcount
    rw [hzero] at hmem
    simpa [standardPasses] using hmem
  refine map_eq_ok.2 ⟨_, run_eq_ok.2 ⟨c.gates, counts', 1,
    sweeps_succ_eq_ok.2 (Or.inl ⟨hsweep, rfl⟩), rfl⟩, ?_⟩
  rw [hnone]
  simp only [Circuit.withGates, Circuit.markOptimized, Circuit.addNames, List.map_nil,
    List.foldl_nil, ← hoptimized, ← hfidelity]

/-- **When optimizing twice is optimizing once**: exactly where a sweep reports the result of the
first run as unchanged, and in any case where the first run had sweeps left. -/
theorem optimize_idempotent_iff {c : Circuit α} {o : Outcome α} (hc : ∀ g ∈ c.gates, g.Built)
    (h : run standardPasses defaultSweeps c = .ok o) :
    optimize c = .ok o.circuit ∧
      ((∃ c', optimize o.circuit = .ok c' ∧ (c'.gates == o.circuit.gates) = true) ↔
        Still o.circuit.gates) ∧
      (Still o.circuit.gates → optimize o.circuit = .ok o.circuit) ∧
      (o.iterations < defaultSweeps → Still o.circuit.gates) := by
  obtain ⟨gates, counts, used, hsweeps, rfl⟩ := run_eq_ok.1 h
  obtain ⟨-, hbuilt, hleft⟩ := below_of_sweeps rfl hc hsweeps
  have hagain : Still gates → optimize ((c.withGates gates).markOptimized
      ((counts.filter fun count => count.modifications != 0).map (·.pass.name))) =
        .ok ((c.withGates gates).markOptimized _) :=
    fun hstill => optimize_of_still hstill rfl rfl
  refine ⟨map_eq_ok.2 ⟨_, h, rfl⟩, ⟨?_, fun hstill => ?_⟩, hagain, hleft⟩
  · rintro ⟨c', hrun, hsame⟩
    obtain ⟨o', hrun', rfl⟩ := map_eq_ok.1 hrun
    obtain ⟨gates', counts', used', hsweeps', rfl⟩ := run_eq_ok.1 hrun'
    exact still_of_sweeps rfl hbuilt hsweeps' hsame
  · exact ⟨_, hagain hstill, hstill.beq_self hbuilt⟩

/-- Sixty-four wide gates with the narrow gate behind them. -/
noncomputable def slow : Circuit ℝ := (Circuit.blank 3 3).appendGates (blocked true 64 0)

theorem built_blocked (forward : Bool) (i m : Nat) :
    ∀ g ∈ (blocked forward i m : List (Gate ℝ)), g.BuiltIn 3 := by
  refine forall_mem_blocked (fun forward => ?_) ⟨built_plain rfl rfl, by decide⟩ forward i m
  cases forward <;> exact ⟨built_plain rfl rfl, by decide⟩

/-- The first run moves the narrow gate to the middle, the second to the front. -/
theorem optimize_slow : slow.Built ∧ ∃ once twice, optimize slow = .ok once ∧
    optimize once = .ok twice ∧ once.gates = blocked true 32 32 ∧ twice.gates = blocked true 0 64 ∧
    (twice.gates == once.gates) = false := by
  obtain ⟨o, hrun, -, honce⟩ := run_blocked (c := slow) defaultSweeps (i := 32) rfl
  obtain ⟨o', hrun', -, htwice⟩ := run_blocked defaultSweeps (i := 0) honce
  refine ⟨built_blocked true 64 0, o.circuit, o'.circuit, map_eq_ok.2 ⟨o, hrun, rfl⟩,
    map_eq_ok.2 ⟨o', hrun', rfl⟩, honce, htwice, ?_⟩
  rw [honce, htwice, Bool.eq_false_iff]
  intro hsame
  -- the first gates are of different kinds
  have hkinds := (of_beq hsame).1
  cases hkinds

/-- The same circuit in view of the condition. -/
theorem optimize_idempotent_iff_of_slow : (∀ g ∈ slow.gates, g.Built) ∧
    ∃ o, run standardPasses defaultSweeps slow = .ok o ∧ optimize slow = .ok o.circuit ∧
      ((∃ c', optimize o.circuit = .ok c' ∧ (c'.gates == o.circuit.gates) = true) ↔
        Still o.circuit.gates) := by
  have hbuilt : ∀ g ∈ slow.gates, g.Built := fun g hg => (built_blocked true 64 0 g hg).built
  obtain ⟨o, hrun, -, -⟩ := run_blocked (c := slow) defaultSweeps (i := 32) rfl
  obtain ⟨honce, hiff, -, -⟩ := optimize_idempotent_iff hbuilt hrun
  exact ⟨hbuilt, o, hrun, honce, hiff⟩

end QuantumWorkbench.Simplification
