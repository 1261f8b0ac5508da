import Mathlib
import QuantumWorkbench.Proofs.Double.Order
import QuantumWorkbench.Proofs.Simplification.Convergence
import QuantumWorkbench.Proofs.Simplification.InPlace

/-!
# Passes and runs tell what they did

A pass says whether it changed a list of gates, and a run sums this up in its counts. A pass that
reports a change has taken the list below itself, in the order in which sweeps settle, and one that
reports none has left it alone. Lists below each other never come back, so what a pass says of one
list a run says of all its sweeps.
-/

namespace QuantumWorkbench

/-! ## Gates that agree with themselves -/

theorem beq_self_of_forall {β : Type} [BEq β] {l : List β} (h : ∀ b ∈ l, (b == b) = true) :
    (l == l) = true := by
  induction l with
  | nil => rfl
  | cons b l ih =>
    obtain ⟨hb, hl⟩ := List.forall_mem_cons.1 h
    rw [List.cons_beq_cons, hb, ih hl]
    rfl

theorem Double.beq_self {x : Float} (hx : x.isNaN = false) : (x == x) = true :=
  (beq_iff_place_eq hx hx).2 rfl

namespace Gate

/-- No number of a gate is undefined: not of its parameters, nor of its matrix, nor its fidelity. -/
structure Defined (g : Gate Float) : Prop where
  parameters : ∀ e ∈ g.parameters.entries, e.2.isNaN = false
  matrix : ∀ a ∈ g.matrix.entries, a.re.isNaN = false ∧ a.im.isNaN = false
  fidelity : g.fidelity.isNaN = false

/-- A gate without undefined numbers agrees with itself. -/
theorem Defined.beq_self {g : Gate Float} (hg : g.Defined) : (g == g) = true := by
  have hparameters : (g.parameters == g.parameters) = true :=
    beq_self_of_forall fun e he => by
      show (e.1 == e.1 && e.2 == e.2) = true
      rw [beq_self_eq_true e.1, Double.beq_self (hg.parameters e he)]
      rfl
  have hentries : (g.matrix.entries.toList == g.matrix.entries.toList) = true :=
    beq_self_of_forall fun a ha => by
      obtain ⟨hre, him⟩ := hg.matrix a (Array.mem_toList_iff.1 ha)
      show (a.re == a.re && a.im == a.im) = true
      rw [Double.beq_self hre, Double.beq_self him]
      rfl
  have hmatrix : (g.matrix == g.matrix) = true := by
    show (g.matrix.dim == g.matrix.dim && g.matrix.entries == g.matrix.entries) = true
    rw [beq_self_eq_true g.matrix.dim, ← Array.beq_toList, hentries]
    rfl
  have hfidelity : (g.fidelity == g.fidelity) = true := Double.beq_self hg.fidelity
  rw [Simplification.beq_eq, beq_self_eq_true g.qubits, hparameters, hmatrix, hfidelity]
  simp

end Gate

namespace Simplification

open Gate

/-! ## What a pass says -/

section

variable {α : Type} [Scalar α] {gates gates' gates'' : List (Gate α)} {changed later : Bool}

/-- A list of gates, what takes its place, and what is said of it: a change where the new list is
below the old one, and none where they are the same. -/
inductive Told (gates : List (Gate α)) : List (Gate α) → Bool → Prop where
  | same : Told gates gates false
  | below {gates' : List (Gate α)} (h : Below gates' gates) : Told gates gates' true

namespace Told

omit [Scalar α] in
theorem trans (h : Told gates gates' changed) (h' : Told gates' gates'' later) :
    Told gates gates'' (changed || later) := by
  cases h with
  | same => exact h'
  | below hfirst =>
    cases h' with
    | same => exact .below hfirst
    | below hlater => exact .below (hlater.trans hfirst)

omit [Scalar α] in
theorem eq_true_iff_ne (h : Told gates gates' changed) : changed = true ↔ gates' ≠ gates := by
  cases h with
  | same => simp
  | below h =>
    refine iff_of_true rfl ?_
    rintro rfl
    exact h.irrefl

theorem eq_true_iff_beq (h : Told gates gates' changed) (hself : (gates == gates) = true) :
    changed = true ↔ (gates' == gates) = false := by
  cases h with
  | same => simp [hself]
  | below h => exact iff_of_true rfl h.beq_eq_false

end Told

omit [Scalar α] in
/-- Leaving gates out is told by the length. -/
theorem told_of_sublist (h : gates'.Sublist gates) :
    Told gates gates' (gates'.length != gates.length) := by
  by_cases hlen : gates'.length = gates.length
  · rw [h.eq_of_length hlen, bne_self_eq_false]
    exact .same
  · rw [bne_iff_ne.2 hlen]
    exact .below (Or.inl (lt_of_le_of_ne h.length_le hlen))

/-- Every exchange takes an inversion away. -/
theorem told_reorder (gates : List (Gate α)) :
    Told gates (reorder gates).1 ((reorder gates).2 != 0) := by
  by_cases hswaps : (reorder gates).2 = 0
  · rw [(reorder_of_eq_zero hswaps).1, hswaps]
    exact .same
  · have hinversions := inversions_reorder gates
    rw [bne_iff_ne.2 hswaps]
    exact .below (Or.inr (Or.inl ⟨(reorder_perm gates).length_eq, by omega⟩))

/-- Fusing takes gates away, or it only flushes: then the new list is compared with the old one, and
where the flush moves a gate the comparison tells. -/
theorem told_fuse {fused : List (Gate α)} (hgates : ∀ g ∈ gates, g.WellFormed)
    (hself : (gates == gates) = true) (h : Fusing .empty gates fused) :
    Told gates fused (fused != gates) := by
  have hle : fused.length ≤ gates.length := by
    simpa [SortedMap.values, SortedMap.empty] using h.length_le
  have hbelow : Below fused gates → Told gates fused (fused != gates) := fun hbelow => by
    rw [bne, hbelow.beq_eq_false]
    exact .below hbelow
  -- with as many gates as before nothing was merged, so all that fusing does is a flush
  rcases hle.lt_or_eq with hlt | heq
  · exact hbelow (Or.inl hlt)
  · obtain rfl : fused = flush gates := h.eq_flushFrom (heq.trans (Nat.zero_add _).symm)
    by_cases hsame : flush gates = gates
    · rw [hsame, bne, hself]
      exact .same
    · exact hbelow (below_flush hgates hsame)

/-- **Every pass tells what it did** to a list that agrees with itself. -/
theorem Pass.told (pass : Pass) (hgates : ∀ g ∈ gates, g.WellFormed)
    (hself : (gates == gates) = true) (h : pass.apply gates = .ok (gates', changed)) :
    Told gates gates' changed := by
  cases pass with
  | dropDead =>
    cases h
    exact told_of_sublist List.filter_sublist
  | fuse =>
    obtain ⟨fused, hfuse, h⟩ := bind_eq_ok.1 h
    cases h
    exact told_fuse hgates hself ((fuse_eq_ok_iff hgates).1 hfuse)
  | cancelInverses lookahead =>
    cases h
    exact told_of_sublist (cancelFrom_sublist lookahead 0 gates)
  | reorder =>
    cases h
    exact told_reorder gates

/-! ## What the counts say -/

/-- Whether any pass has changed something. -/
def anyModified (counts : List PassCount) : Bool := counts.any fun c => c.modifications != 0

/-- A sweep counts one application of each pass, and a modification where it changed something. -/
theorem counts_of_sweep {counts counts' : List PassCount}
    (h : sweep gates counts = .ok (gates', counts', changed)) :
    counts'.map (·.applications) = (counts.map (·.applications)).map (· + 1) ∧
      anyModified counts' = (anyModified counts || changed) := by
  induction counts generalizing gates counts' changed with
  | nil =>
    cases h
    exact ⟨rfl, rfl⟩
  | cons count counts ih =>
    obtain ⟨gates₁, first, rest, later, -, hsweep, rfl, rfl⟩ := sweep_cons_eq_ok.1 h
    obtain ⟨happlications, hmodified⟩ := ih hsweep
    refine ⟨by rw [List.map_cons, List.map_cons, happlications]; rfl, ?_⟩
    have hfirst : ((count.counted first).modifications != 0) =
        (count.modifications != 0 || first) := by
      cases first <;> simp [PassCount.counted]
    show ((count.counted first).modifications != 0 || anyModified rest) =
      (count.modifications != 0 || anyModified counts || (first || later))
    rw [hfirst, hmodified]
    simp only [Bool.or_assoc, Bool.or_left_comm]

end

/-! ## Runs over the real numbers -/

section

variable {gates gates' : List (Gate ℝ)} {counts counts' : List PassCount} {changed : Bool}

/-- **The step**: a sweep tells what it did. -/
theorem told_of_sweep (hgates : ∀ g ∈ gates, g.Built)
    (h : sweep gates counts = .ok (gates', counts', changed)) :
    Told gates gates' changed ∧ ∀ g ∈ gates', g.Built := by
  induction counts generalizing gates counts' changed with
  | nil =>
    cases h
    exact ⟨.same, hgates⟩
  | cons count counts ih =>
    obtain ⟨gates₁, first, rest, later, happly, hsweep, -, rfl⟩ := sweep_cons_eq_ok.1 h
    have hfirst := count.pass.told (wellFormed_of_built hgates) (beq_self_eq_true gates) happly
    obtain ⟨_, _, hsame, hshrinks⟩ := count.pass.exists_apply hgates
    cases happly.symm.trans hsame
    obtain ⟨hrest, hbuilt⟩ := ih hshrinks.built hsweep
    exact ⟨hfirst.trans hrest, hbuilt⟩

/-- **The run**: the counts of sweeps tell together what they did, with one application of each pass
for each sweep. -/
theorem told_of_sweeps {n used : ℕ} (hgates : ∀ g ∈ gates, g.Built)
    (h : sweeps n gates counts = .ok (gates', counts', used)) :
    (∃ changed, Told gates gates' changed ∧
      anyModified counts' = (anyModified counts || changed)) ∧
    counts'.map (·.pass) = counts.map (·.pass) ∧
    counts'.map (·.applications) = (counts.map (·.applications)).map (· + used) ∧ used ≤ n := by
  induction n generalizing gates counts used with
  | zero =>
    cases h
    exact ⟨⟨false, .same, (Bool.or_false _).symm⟩, rfl, (List.map_id' _).symm, le_rfl⟩
  | succ n ih =>
    rcases sweeps_succ_eq_ok.1 h with ⟨hsweep, rfl⟩ | ⟨gates₁, counts₁, rest, hsweep, hsweeps, rfl⟩
    · -- the only sweep reports no change
      obtain ⟨happlications, hmodified⟩ := counts_of_sweep hsweep
      exact ⟨⟨false, (told_of_sweep hgates hsweep).1, hmodified⟩, (passes_of_sweep hsweep).1,
        happlications, Nat.succ_le_succ n.zero_le⟩
    · obtain ⟨happlications, hmodified⟩ := counts_of_sweep hsweep
      obtain ⟨hfirst, hbuilt⟩ := told_of_sweep hgates hsweep
      obtain ⟨⟨later, hlater, hmodified'⟩, hpasses, happlications', hused⟩ := ih hbuilt hsweeps
      refine ⟨⟨_, hfirst.trans hlater, ?_⟩, hpasses.trans (passes_of_sweep hsweep).1, ?_,
        Nat.succ_le_succ hused⟩
      · rw [hmodified', hmodified, Bool.or_assoc]
      · rw [happlications', happlications, List.map_map]
        exact List.map_congr_left fun m _ => Nat.add_right_comm m 1 rest

/-- A run over the real numbers tells what it did. -/
theorem told_of_run {passes : List Pass} {maxSweeps : ℕ} {c : Circuit ℝ} {o : Outcome ℝ}
    (hc : ∀ g ∈ c.gates, g.Built) (h : run passes maxSweeps c = .ok o) :
    Told c.gates o.circuit.gates o.modified ∧ o.counts.map (·.pass) = passes ∧
      (∀ count ∈ o.counts, count.applications = o.iterations) ∧ o.iterations ≤ maxSweeps := by
  obtain ⟨gates, counts, used, hsweeps, rfl⟩ := run_eq_ok.1 h
  obtain ⟨⟨changed, htold, hmodified⟩, hpasses, happlications, hused⟩ := told_of_sweeps hc hsweeps
  have hfresh : anyModified (passes.map fun p => ⟨p, 0, 0⟩) = false := by simp [anyModified]
  rw [hfresh, Bool.false_or] at hmodified
  rw [List.map_map] at hpasses
  refine ⟨?_, hpasses.trans (List.map_id' passes), fun count hcount => ?_, hused⟩
  · show Told c.gates gates (anyModified counts)
    rwa [hmodified]
  · -- every pass starts from no application
    have hmem := List.mem_map_of_mem (f := (·.applications)) hcount
    simp only [happlications, List.map_map, List.mem_map, Function.comp_apply,
      Nat.zero_add] at hmem
    obtain ⟨_, -, hused⟩ := hmem
    exact hused.symm

end

/-! ## The flags -/

/-- **Every pass and every run tell the truth.** Over doubles, a list of well-formed gates without
undefined numbers is changed by a pass, with any look-ahead, exactly if the pass answers so: the
list that it leaves is another one, and does not pass for equal to the old one. A pass that fails
leaves the list alone. Over the real numbers every run of any passes reports a modification exactly
if the gates of the result are not those that it began with, each pass was applied as often as there
were sweeps, and there were no more sweeps than allowed. -/
theorem flags_tell_changes :
    (∀ (pass : Pass) (gates : List (Gate Float)), (∀ g ∈ gates, g.WellFormed ∧ g.Defined) →
      ∀ answer left, settleList gates (pass.apply gates) = (answer, left) →
        (answer = .ok true ↔ left ≠ gates) ∧ (answer = .ok true ↔ (left == gates) = false)) ∧
    ∀ (passes : List Pass) (maxSweeps : ℕ) (c : Circuit ℝ), (∀ g ∈ c.gates, g.Built) →
      ∃ o, run passes maxSweeps c = .ok o ∧
        (o.modified = true ↔ o.circuit.gates ≠ c.gates) ∧
        o.counts.map (·.pass) = passes ∧
        (∀ count ∈ o.counts, count.applications = o.iterations) ∧ o.iterations ≤ maxSweeps := by
  refine ⟨fun pass gates hgates answer left hsettled => ?_, fun passes maxSweeps c hc => ?_⟩
  · have hself : (gates == gates) = true := beq_self_of_forall fun g hg => (hgates g hg).2.beq_self
    cases happly : pass.apply gates with
    | error e =>
      -- a pass that fails answers with no flag and leaves the list
      rw [happly] at hsettled
      cases hsettled
      simp [hself]
    | ok result =>
      obtain ⟨gates', changed⟩ := result
      rw [happly] at hsettled
      cases hsettled
      have htold := pass.told (fun g hg => (hgates g hg).1) hself happly
      rw [Except.ok.injEq]
      exact ⟨htold.eq_true_iff_ne, htold.eq_true_iff_beq hself⟩
  · obtain ⟨gates, counts, used, hsweeps, -⟩ :=
      describes_shrinks.sweeps maxSweeps (passes.map fun p => ⟨p, 0, 0⟩) hc
    have hrun := run_eq_ok.2 ⟨gates, counts, used, hsweeps, rfl⟩
    obtain ⟨htold, hpasses, happlications, hused⟩ := told_of_run hc hrun
    exact ⟨_, hrun, htold.eq_true_iff_ne, hpasses, happlications, hused⟩

/-- A flip that is moved ahead of a controlled flip beside it, over doubles; and two flips of one
qubit, in a run over the real numbers. -/
theorem flags_tell_changes_flips :
    (∀ g ∈ [(Gate.plain .cnot [0, 1] : Gate Float), Gate.plain .x [2]], g.WellFormed ∧ g.Defined) ∧
    settleList [Gate.plain .cnot [0, 1], Gate.plain .x [2]]
      (Pass.reorder.apply [(Gate.plain .cnot [0, 1] : Gate Float), Gate.plain .x [2]]) =
        (.ok true, [Gate.plain .x [2], Gate.plain .cnot [0, 1]]) ∧
    [(Gate.plain .x [2] : Gate Float), Gate.plain .cnot [0, 1]] ≠
      [Gate.plain .cnot [0, 1], Gate.plain .x [2]] ∧
    (∀ g ∈ ((Circuit.blank 1 1).appendGates [Gate.plain .x [0], Gate.plain .x [0]]).gates,
      (g : Gate ℝ).Built) ∧
    ∃ o : Outcome ℝ, run standardPasses 5
        ((Circuit.blank 1 1).appendGates [Gate.plain .x [0], Gate.plain .x [0]]) = .ok o ∧
      (o.modified = true ↔ o.circuit.gates ≠ [Gate.plain .x [0], Gate.plain .x [0]]) ∧
      o.iterations ≤ 5 := by
  have hgates : ∀ g ∈ [(Gate.plain .cnot [0, 1] : Gate Float), Gate.plain .x [2]],
      g.WellFormed ∧ g.Defined := by
    simp only [List.forall_mem_cons, List.not_mem_nil, false_implies, implies_true, and_true]
    exact ⟨⟨(Built.make (make_plain rfl rfl)).wellFormed, by decide, by decide +kernel, rfl⟩,
      (Built.make (make_plain rfl rfl)).wellFormed, by decide, by decide +kernel, rfl⟩
  have hmoved : settleList [Gate.plain .cnot [0, 1], Gate.plain .x [2]]
      (Pass.reorder.apply [(Gate.plain .cnot [0, 1] : Gate Float), Gate.plain .x [2]]) =
        (.ok true, [Gate.plain .x [2], Gate.plain .cnot [0, 1]]) := rfl
  have hbuilt : ∀ g ∈ ((Circuit.blank 1 1).appendGates
      [Gate.plain .x [0], Gate.plain .x [0]]).gates, (g : Gate ℝ).Built := by
    show ∀ g ∈ [(Gate.plain .x [0] : Gate ℝ), Gate.plain .x [0]], g.Built
    simp only [List.forall_mem_cons, List.not_mem_nil, false_implies, implies_true, and_true]
    exact ⟨built_plain rfl rfl, built_plain rfl rfl⟩
  obtain ⟨o, ho, hmodified, -, -, hused⟩ := flags_tell_changes.2 standardPasses 5 _ hbuilt
  exact ⟨hgates, hmoved, (flags_tell_changes.1 .reorder _ hgates _ _ hmoved).1.1 rfl, hbuilt, o, ho,
    hmodified, hused⟩

end Simplification

end QuantumWorkbench
