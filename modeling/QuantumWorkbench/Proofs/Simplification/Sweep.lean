import QuantumWorkbench.Proofs.Gate.Comparison
import QuantumWorkbench.Simplification.Pipeline

/-!
# Sweeps

A sweep chains its passes, sweeps follow each other as long as one changes something, and a run
packs what they leave into a circuit. What a sweep counts has no influence on what it does: only
the passes of the counts matter. A relation that composes and describes every pass describes every
run; it may refer to the angles that dropping and cancelling take away, which are listed here.
-/

namespace QuantumWorkbench.Simplification

open Gate

variable {α : Type} [Scalar α]

/-- A count after one more application of its pass. -/
def PassCount.counted (count : PassCount) (changed : Bool) : PassCount :=
  { count with
    applications := count.applications + 1
    modifications := count.modifications + if changed then 1 else 0 }

/-- A sweep is its first pass followed by a sweep of the others. -/
theorem sweep_cons_eq_ok {gates gates' : List (Gate α)} {count : PassCount}
    {counts counts' : List PassCount} {changed : Bool} :
    sweep gates (count :: counts) = .ok (gates', counts', changed) ↔
      ∃ gates₁ first rest later, count.pass.apply gates = .ok (gates₁, first) ∧
        sweep gates₁ counts = .ok (gates', rest, later) ∧
        counts' = count.counted first :: rest ∧ changed = (first || later) := by
  rw [sweep]
  simp only [bind_eq_ok, Prod.exists]
  constructor
  · rintro ⟨gates₁, first, happly, gates₂, rest, later, hsweep, h⟩
    cases h
    exact ⟨gates₁, first, rest, later, happly, hsweep, rfl, rfl⟩
  · rintro ⟨gates₁, first, rest, later, happly, hsweep, rfl, rfl⟩
    exact ⟨gates₁, first, happly, gates', rest, later, hsweep, rfl⟩

/-- A sweep keeps the passes, and what it counts tells whether it changed anything. -/
theorem passes_of_sweep {gates gates' : List (Gate α)} {counts counts' : List PassCount}
    {changed : Bool} (h : sweep gates counts = .ok (gates', counts', changed)) :
    counts'.map (·.pass) = counts.map (·.pass) ∧
      (changed = false → counts'.map (·.modifications) = counts.map (·.modifications)) := by
  induction counts generalizing gates counts' changed with
  | nil =>
    cases h
    exact ⟨rfl, fun _ => rfl⟩
  | cons count counts ih =>
    obtain ⟨gates₁, first, rest, later, -, hsweep, rfl, rfl⟩ := sweep_cons_eq_ok.1 h
    obtain ⟨hpasses, hmodifications⟩ := ih hsweep
    refine ⟨by rw [List.map_cons, List.map_cons, hpasses]; rfl, fun hchanged => ?_⟩
    -- no pass of the sweep changed anything
    obtain ⟨rfl, rfl⟩ := Bool.or_eq_false_iff.1 hchanged
    rw [List.map_cons, List.map_cons, hmodifications rfl]
    rfl

/-- Sweeps with the same passes do the same, whatever was counted before. -/
theorem sweep_congr {gates gates' : List (Gate α)} {counts counts' others : List PassCount}
    {changed : Bool} (hpasses : others.map (·.pass) = counts.map (·.pass))
    (h : sweep gates counts = .ok (gates', counts', changed)) :
    ∃ others', sweep gates others = .ok (gates', others', changed) := by
  induction counts generalizing gates counts' others changed with
  | nil =>
    cases List.map_eq_nil_iff.1 hpasses
    cases h
    exact ⟨[], rfl⟩
  | cons count counts ih =>
    obtain ⟨other, others, rfl, hpass, hothers⟩ := List.map_eq_cons_iff.1 hpasses
    obtain ⟨gates₁, first, rest, later, happly, hsweep, -, rfl⟩ := sweep_cons_eq_ok.1 h
    obtain ⟨rest', hrest⟩ := ih hothers hsweep
    exact ⟨_, sweep_cons_eq_ok.2
      ⟨gates₁, first, rest', later, by rw [hpass, happly], hrest, rfl, rfl⟩⟩

/-- Sweeps go on after a sweep that changed something. -/
theorem sweeps_succ_eq_ok {n used : Nat} {gates gates' : List (Gate α)}
    {counts counts' : List PassCount} :
    sweeps (n + 1) gates counts = .ok (gates', counts', used) ↔
      sweep gates counts = .ok (gates', counts', false) ∧ used = 1 ∨
      ∃ gates₁ counts₁ rest, sweep gates counts = .ok (gates₁, counts₁, true) ∧
        sweeps n gates₁ counts₁ = .ok (gates', counts', rest) ∧ used = rest + 1 := by
  rw [sweeps]
  simp only [bind_eq_ok, Prod.exists]
  constructor
  · rintro ⟨gates₁, counts₁, changed, hsweep, h⟩
    cases changed with
    | false =>
      cases h
      exact Or.inl ⟨hsweep, rfl⟩
    | true =>
      obtain ⟨⟨gates₂, counts₂, rest⟩, hsweeps, h⟩ := bind_eq_ok.1 h
      cases h
      exact Or.inr ⟨gates₁, counts₁, rest, hsweep, hsweeps, rfl⟩
  · rintro (⟨hsweep, rfl⟩ | ⟨gates₁, counts₁, rest, hsweep, hsweeps, rfl⟩)
    · exact ⟨gates', counts', false, hsweep, rfl⟩
    · exact ⟨gates₁, counts₁, true, hsweep, bind_eq_ok.2 ⟨_, hsweeps, rfl⟩⟩

/-- What a run returns. -/
theorem run_eq_ok {passes : List Pass} {maxSweeps : Nat} {c : Circuit α} {o : Outcome α} :
    run passes maxSweeps c = .ok o ↔ ∃ gates counts used,
      sweeps maxSweeps c.gates (passes.map fun p => ⟨p, 0, 0⟩) = .ok (gates, counts, used) ∧
      o = {
        circuit := (c.withGates gates).markOptimized
          ((counts.filter fun count => count.modifications != 0).map (·.pass.name))
        counts
        iterations := used
        before := c.gates.length
        after := gates.length } := by
  rw [run]
  simp only [bind_eq_ok, Prod.exists, pure, Except.pure, Except.ok.injEq, eq_comm (a := o)]

/-! ## What is dropped -/

/-- The angles of the dead gates; a dead gate that does not rotate counts as zero. -/
def deadAngles (gates : List (Gate α)) : List α :=
  (gates.filter isDead).map fun g => g.angle.getD 0

/-- The angle sums of the pairs that are cancelled from a position on. -/
def cancelledSums (lookahead position : Nat) (gates : List (Gate α)) : List α :=
  match gates with
  | [] => []
  | g :: gs =>
    match partnerIn g (gs.take (reach lookahead position)) with
    | some k =>
      (gs[k]?.map (turnSum g)).toList ++ cancelledSums lookahead position (gs.eraseIdx k)
    | none => cancelledSums lookahead (position + 1) gs
  termination_by gates.length
  decreasing_by
    · have := List.length_eraseIdx_le gs k
      simp only [List.length_cons]
      omega
    · simp

/-- The angles and angle sums that a pass drops. -/
def Pass.dropped (pass : Pass) (gates : List (Gate α)) : List α :=
  match pass with
  | .dropDead => deadAngles gates
  | .cancelInverses lookahead => cancelledSums lookahead 0 gates
  | .fuse | .reorder => []

/-- The angles and angle sums that a sweep drops. -/
def sweepDropped (gates : List (Gate α)) : List PassCount → List α
  | [] => []
  | count :: counts => count.pass.dropped gates ++
    match count.pass.apply gates with
    | .ok (gates, _) => sweepDropped gates counts
    | .error _ => []

/-- The angles and angle sums that a number of sweeps drops. -/
def sweepsDropped : Nat → List (Gate α) → List PassCount → List α
  | 0, _, _ => []
  | n + 1, gates, counts => sweepDropped gates counts ++
    match sweep gates counts with
    | .ok (gates, counts, true) => sweepsDropped n gates counts
    | _ => []

/-- The angles and angle sums that a run of the pipeline drops. -/
def runDropped (passes : List Pass) (maxSweeps : Nat) (c : Circuit α) : List α :=
  sweepsDropped maxSweeps c.gates (passes.map fun p => ⟨p, 0, 0⟩)

/-! ## Descriptions -/

/-- Gates with a property, the gates that take their place, and the angles dropped on the way: a
relation between them that composes, and that every pass obeys. -/
structure Describes (P : Gate α → Prop) (R : List (Gate α) → List (Gate α) → List α → Prop) :
    Prop where
  refl : ∀ {gates}, (∀ g ∈ gates, P g) → R gates gates []
  trans : ∀ {gates gates' gates'' dropped dropped'}, R gates gates' dropped →
    R gates' gates'' dropped' → R gates gates'' (dropped ++ dropped')
  forall_mem : ∀ {gates gates' dropped}, R gates gates' dropped → ∀ g ∈ gates', P g
  pass : ∀ (pass : Pass) {gates}, (∀ g ∈ gates, P g) →
    ∃ gates' changed, pass.apply gates = .ok (gates', changed) ∧ R gates gates' (pass.dropped gates)

namespace Describes

variable {P : Gate α → Prop} {R : List (Gate α) → List (Gate α) → List α → Prop}

theorem sweep (h : Describes P R) (counts : List PassCount) {gates : List (Gate α)}
    (hgates : ∀ g ∈ gates, P g) :
    ∃ gates' counts' changed, Simplification.sweep gates counts = .ok (gates', counts', changed) ∧
      R gates gates' (sweepDropped gates counts) := by
  induction counts generalizing gates with
  | nil => exact ⟨gates, [], false, rfl, h.refl hgates⟩
  | cons count counts ih =>
    obtain ⟨gates₁, first, happly, hfirst⟩ := h.pass count.pass hgates
    obtain ⟨gates₂, counts', later, hsweep, hrest⟩ := ih (h.forall_mem hfirst)
    refine ⟨gates₂, count.counted first :: counts', first || later,
      sweep_cons_eq_ok.2 ⟨gates₁, first, counts', later, happly, hsweep, rfl, rfl⟩, ?_⟩
    rw [sweepDropped, happly]
    exact h.trans hfirst hrest

/-- **Sweeps succeed and obey the relation**, however many are allowed. -/
theorem sweeps (h : Describes P R) (maxSweeps : Nat) (counts : List PassCount)
    {gates : List (Gate α)} (hgates : ∀ g ∈ gates, P g) :
    ∃ gates' counts' used,
      Simplification.sweeps maxSweeps gates counts = .ok (gates', counts', used) ∧
        R gates gates' (sweepsDropped maxSweeps gates counts) := by
  induction maxSweeps generalizing gates counts with
  | zero => exact ⟨gates, counts, 0, rfl, h.refl hgates⟩
  | succ m ih =>
    obtain ⟨gates₁, counts₁, changed, hsweep, hfirst⟩ := h.sweep counts hgates
    rw [sweepsDropped, hsweep]
    cases changed with
    | false =>
      -- no sweep follows, and nothing more is dropped
      refine ⟨gates₁, counts₁, 1, sweeps_succ_eq_ok.2 (Or.inl ⟨hsweep, rfl⟩), ?_⟩
      rwa [List.append_nil]
    | true =>
      obtain ⟨gates₂, counts₂, used, hsweeps, hrest⟩ := ih counts₁ (h.forall_mem hfirst)
      exact ⟨gates₂, counts₂, used + 1,
        sweeps_succ_eq_ok.2 (Or.inr ⟨gates₁, counts₁, used, hsweep, hsweeps, rfl⟩),
        h.trans hfirst hrest⟩

end Describes

end QuantumWorkbench.Simplification
