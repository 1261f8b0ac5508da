import Mathlib
import QuantumWorkbench.Proofs.Simplification.Fusion
import QuantumWorkbench.Proofs.Simulation

/-!
# What simplifying a circuit does to its state

Fusing and reordering keep the operator of a list of gates. Dropping a dead rotation turns by its
angle, and cancelling an inverse pair by the sum of its angles; both are below the tolerance. So a
run of the passes moves the state by at most half the sum of these angles, and not at all where all
of them are zero.
-/

namespace QuantumWorkbench.Simplification

open Gate Register

/-! ## Approximation -/

/-- Gates take the place of others: none is added, at least one goes for every dropped angle, and a
wave comes out changed by at most half the sum of the dropped angles, which are small. -/
structure Approximates (n : ℕ) (gates gates' : List (Gate ℝ)) (angles : List ℝ) : Prop where
  unitary : ∀ g ∈ gates', g.UnitaryIn n
  length : gates'.length + angles.length ≤ gates.length
  small : ∀ θ ∈ angles, |θ| < Scalar.tolerance
  close : ∀ ψ, ‖vector n (operatorAll gates' ψ) - vector n (operatorAll gates ψ)‖ ≤
    (angles.map abs).sum / 2 * ‖vector n ψ‖

namespace Approximates

variable {n : ℕ} {gates gates' gates'' : List (Gate ℝ)} {angles angles' : List ℝ}

/-- Gates with the same operator. -/
theorem of_eq (hunitary : ∀ g ∈ gates', g.UnitaryIn n) (hlen : gates'.length ≤ gates.length)
    (hop : operatorAll gates' = operatorAll gates) : Approximates n gates gates' [] where
  unitary := hunitary
  length := hlen
  small := by simp
  close ψ := by simp [hop]

theorem refl (hgates : ∀ g ∈ gates, g.UnitaryIn n) : Approximates n gates gates [] :=
  of_eq hgates le_rfl rfl

theorem trans (h : Approximates n gates gates' angles)
    (h' : Approximates n gates' gates'' angles') :
    Approximates n gates gates'' (angles ++ angles') where
  unitary := h'.unitary
  length := by
    have := h.length
    have := h'.length
    rw [List.length_append]
    omega
  small := List.forall_mem_append.2 ⟨h.small, h'.small⟩
  close ψ := by
    have hsplit := norm_sub_le_norm_sub_add_norm_sub (vector n (operatorAll gates'' ψ))
      (vector n (operatorAll gates' ψ)) (vector n (operatorAll gates ψ))
    have hfirst := h.close ψ
    have hsecond := h'.close ψ
    rw [List.map_append, List.sum_append]
    linarith

/-- A gate before both lists. -/
theorem cons (h : Approximates n gates gates' angles) {g : Gate ℝ} (hg : g.UnitaryIn n) :
    Approximates n (g :: gates) (g :: gates') angles where
  unitary := List.forall_mem_cons.2 ⟨hg, h.unitary⟩
  length := by
    have := h.length
    simp only [List.length_cons]
    omega
  small := h.small
  close ψ := by
    have hclose := h.close (g.operator ψ)
    rwa [norm_operator hg] at hclose

/-- The bound by the number of gates that are gone. -/
theorem norm_sub_le (h : Approximates n gates gates' angles) {ψ : Register.Wave}
    (hψ : ‖vector n ψ‖ = 1) :
    ‖vector n (operatorAll gates' ψ) - vector n (operatorAll gates ψ)‖ ≤
      (gates.length - gates'.length : ℕ) * 1e-10 := by
  have hsum : (angles.map abs).sum ≤ angles.length * 1e-10 := by
    have hle := List.sum_le_card_nsmul (angles.map abs) 1e-10 fun x hx => by
      obtain ⟨θ, hθ, rfl⟩ := List.mem_map.1 hx
      exact Scalar.tolerance_real ▸ (h.small θ hθ).le
    simpa using hle
  have hcount : (angles.length : ℝ) ≤ (gates.length - gates'.length : ℕ) := by
    have := h.length
    exact_mod_cast (by omega : angles.length ≤ gates.length - gates'.length)
  have hclose := h.close ψ
  rw [hψ, mul_one] at hclose
  have hnonneg : (0 : ℝ) ≤ angles.length := Nat.cast_nonneg _
  linarith

/-- Where only zeros are dropped nothing moves. -/
theorem eq_of_forall_eq_zero (h : Approximates n gates gates' angles) (hzero : ∀ θ ∈ angles, θ = 0)
    (ψ : Register.Wave) : vector n (operatorAll gates' ψ) = vector n (operatorAll gates ψ) := by
  have hsum : (angles.map abs).sum = 0 := List.sum_eq_zero fun x hx => by
    obtain ⟨θ, hθ, rfl⟩ := List.mem_map.1 hx
    rw [hzero θ hθ, abs_zero]
  have hclose := h.close ψ
  rw [hsum, zero_div, zero_mul] at hclose
  exact sub_eq_zero.1 (norm_le_zero_iff.1 hclose)

end Approximates

/-! ## The single passes -/

section Passes

variable {n : ℕ}

/-- A dead gate may go. -/
theorem approximates_of_isDead {g : Gate ℝ} {gs : List (Gate ℝ)} (hn : n < 64)
    (hgs : ∀ h ∈ g :: gs, h.UnitaryIn n) (hdead : isDead g = true) :
    Approximates n (g :: gs) gs [g.angle.getD 0] := by
  obtain ⟨hg, hgs⟩ := List.forall_mem_cons.1 hgs
  -- either way the gate turns its qubit by its angle
  have hturn : |g.angle.getD 0| < Scalar.tolerance ∧ ∀ ψ, ‖vector n (g.operator ψ) - vector n ψ‖ ≤
      |g.angle.getD 0| / 2 * ‖vector n ψ‖ := by
    by_cases hr : g.isRotation = true
    · have hsmall : |g.angle.getD 0| < Scalar.tolerance := by
        obtain ⟨key, hkey⟩ := Option.isSome_iff_exists.1 hr
        have hne : g.kind ≠ .identity := fun h => by rw [h] at hkey; cases hkey
        simpa [isDead, hne, angle, hkey] using hdead
      obtain ⟨axis, -, hop⟩ := operator_rotation hg.built.wellFormed hr
      have hinside : g.qubits.headD 0 < n := hg.inside _ (by
        rw [hg.built.wellFormed.rotation_qubits hr]
        simp)
      exact ⟨hsmall, fun ψ => by rw [hop]; exact norm_turnAt_sub_le hinside axis _ ψ⟩
    · have hnone : g.angle = none := by
        rw [angle, Option.not_isSome_iff_eq_none.1 hr]
        rfl
      have hidentity : g.kind = .identity := by simpa [isDead, hnone] using hdead
      refine ⟨by simpa [hnone] using Scalar.tolerance_pos, fun ψ => ?_⟩
      rw [operator_identity hn hg.toBuiltIn hidentity, LinearMap.id_apply, sub_self, norm_zero]
      positivity
  -- the gates that follow keep the distance
  refine ⟨hgs, by simp, by simpa using hturn.1, fun ψ => ?_⟩
  rw [operatorAll_cons, LinearMap.comp_apply, norm_sub_rev, ← map_sub, ← map_sub,
    norm_operatorAll hgs, map_sub]
  simpa using hturn.2 ψ

theorem approximates_dropDead (hn : n < 64) {gates : List (Gate ℝ)}
    (hgates : ∀ g ∈ gates, g.UnitaryIn n) :
    Approximates n gates (dropDead gates) (deadAngles gates) := by
  induction gates with
  | nil => exact Approximates.refl hgates
  | cons g gs ih =>
    obtain ⟨hg, hgs⟩ := List.forall_mem_cons.1 hgates
    cases hdead : isDead g with
    | true =>
      have hall := (approximates_of_isDead hn hgates hdead).trans (ih hgs)
      simpa [dropDead, deadAngles, hdead] using hall
    | false =>
      have hall := (ih hgs).cons hg
      simpa [dropDead, deadAngles, hdead] using hall

theorem approximates_fuse (hn : n < 64) {gates : List (Gate ℝ)}
    (hgates : ∀ g ∈ gates, g.UnitaryIn n) :
    ∃ fused, fuse gates = .ok fused ∧ Approximates n gates fused [] := by
  have hbuilt : ∀ g ∈ gates, g.Built := fun g hg => (hgates g hg).built
  obtain ⟨fused, hfusing⟩ := exists_fusing (held_empty _) hbuilt
  have hlen := hfusing.length_le
  refine ⟨fused, (fuse_eq_ok_iff (wellFormed_of_built hbuilt)).2 hfusing, .of_eq
    (hfusing.forall_mem (mergeClosed_unitaryIn hn) (held_empty _) hgates) ?_
    (hfusing.operatorAll_eq (held_empty _) hbuilt)⟩
  simpa [SortedMap.values, SortedMap.empty] using hlen

/-- A gate and its partner may go, across gates that commute with the first of them. -/
theorem approximates_of_isInverseOf (hn : n < 64) {a b : Gate ℝ} {between rest : List (Gate ℝ)}
    (hgates : ∀ g ∈ a :: (between ++ b :: rest), g.UnitaryIn n)
    (hcommutes : ∀ g ∈ between, a.commutes g = true) (hinverse : a.isInverseOf b = true) :
    Approximates n (a :: (between ++ b :: rest)) (between ++ rest) [turnSum a b] := by
  obtain ⟨ha, hgates⟩ := List.forall_mem_cons.1 hgates
  obtain ⟨hbetween, hgates⟩ := List.forall_mem_append.1 hgates
  obtain ⟨hb, hrest⟩ := List.forall_mem_cons.1 hgates
  have hpast : operatorAll between ∘ₗ a.operator = a.operator ∘ₗ operatorAll between :=
    operatorAll_comm fun g hg =>
      (operator_comm ha.built.wellFormed (hbetween g hg).built.wellFormed
        (ne_custom_of_isInverseOf hinverse) (hcommutes g hg)).symm
  refine ⟨List.forall_mem_append.2 ⟨hbetween, hrest⟩, by simp [Nat.add_assoc], ?_, fun ψ => ?_⟩
  · simpa using abs_turnSum_lt hinverse
  · -- the pair acts right after the gates between
    have hmove : operatorAll (a :: (between ++ b :: rest)) ψ =
        operatorAll rest (b.operator (a.operator (operatorAll between ψ))) := by
      rw [operatorAll_cons, operatorAll_append, LinearMap.comp_assoc, hpast, operatorAll_cons]
      rfl
    have hpair := norm_inverse_sub_le hn ha.toBuiltIn hb.toBuiltIn hinverse (operatorAll between ψ)
    rw [hmove, operatorAll_append, LinearMap.comp_apply, norm_sub_rev, ← map_sub, ← map_sub,
      norm_operatorAll hrest, map_sub]
    rw [norm_operatorAll hbetween] at hpair
    simpa using hpair

theorem approximates_cancelFrom (hn : n < 64) (lookahead position : ℕ) {gates : List (Gate ℝ)}
    (hgates : ∀ g ∈ gates, g.UnitaryIn n) :
    Approximates n gates (cancelFrom lookahead position gates)
      (cancelledSums lookahead position gates) := by
  fun_induction cancelFrom lookahead position gates with
  | case1 =>
    rw [cancelledSums]
    exact Approximates.refl hgates
  | case2 position g gs k hk ih =>
    obtain ⟨between, b, rest, rfl, rfl, hcommutes, hinverse⟩ := exists_of_partnerIn_take hk
    have hpair := approximates_of_isInverseOf hn hgates hcommutes hinverse
    -- the pair goes, and the search goes on from the same position
    rw [cancelledSums, hk]
    simp only [List.eraseIdx_append_of_length_le le_rfl, Nat.sub_self, List.eraseIdx_cons_zero,
      List.getElem?_append_right le_rfl, List.getElem?_cons_zero] at ih ⊢
    exact hpair.trans (ih hpair.unitary)
  | case3 position g gs hk ih =>
    obtain ⟨hg, hgs⟩ := List.forall_mem_cons.1 hgates
    rw [cancelledSums, hk]
    exact (ih hgs).cons hg

/-- A wide gate may be carried past a narrow one: the two share no qubit. -/
theorem operatorAll_carry (g : Gate ℝ) (gs : List (Gate ℝ)) :
    operatorAll (carry g gs).1 = operatorAll (g :: gs) := by
  induction gs generalizing g with
  | nil => rfl
  | cons h hs ih =>
    unfold carry
    split
    · next hexchange =>
      simp only [Bool.and_eq_true, decide_eq_true_eq] at hexchange
      have hcomm := operator_comm_of_disjoint (disjoint_of_commutes hexchange.2 hexchange.1.ne')
      rw [operatorAll_cons, ih g, operatorAll_cons, operatorAll_cons, operatorAll_cons,
        LinearMap.comp_assoc, LinearMap.comp_assoc, hcomm]
    · rw [operatorAll_cons, ih h]
      rfl

theorem approximates_reorder {gates : List (Gate ℝ)} (hgates : ∀ g ∈ gates, g.UnitaryIn n) :
    Approximates n gates (reorder gates).1 [] := by
  have hperm := reorder_perm gates
  refine .of_eq (fun g hg => hgates g (hperm.mem_iff.1 hg)) hperm.length_eq.le ?_
  cases gates with
  | nil => rfl
  | cons g gs => exact operatorAll_carry g gs

/-- **Every pass succeeds** and gives an approximation of the gates it is applied to. -/
theorem Pass.approximates (hn : n < 64) (pass : Pass) {gates : List (Gate ℝ)}
    (hgates : ∀ g ∈ gates, g.UnitaryIn n) :
    ∃ gates' changed, pass.apply gates = .ok (gates', changed) ∧
      Approximates n gates gates' (pass.dropped gates) := by
  cases pass with
  | dropDead => exact ⟨_, _, rfl, approximates_dropDead hn hgates⟩
  | fuse =>
    obtain ⟨fused, hfused, happrox⟩ := approximates_fuse hn hgates
    exact ⟨fused, _, by rw [Pass.apply, hfused]; rfl, happrox⟩
  | cancelInverses lookahead => exact ⟨_, _, rfl, approximates_cancelFrom hn lookahead 0 hgates⟩
  | reorder => exact ⟨_, _, rfl, approximates_reorder hgates⟩

end Passes

/-- Approximation describes the passes on unitary gates of a register. -/
theorem describes_approximates {n : ℕ} (hn : n < 64) :
    Describes (UnitaryIn n) (Approximates n) where
  refl := .refl
  trans := .trans
  forall_mem h := h.unitary
  pass pass _ hgates := pass.approximates hn hgates

/-! ## States -/

/-- **A run of the pipeline keeps the state of a circuit** up to `10⁻¹⁰` for every gate that is
gone, and exactly where every angle and angle sum it drops is zero. This holds for every list of
passes and every number of sweeps, as long as the register or the limit of the simulation is below
the length of a word; a register that is not simulated is refused before and after in the same
way. -/
theorem run_keeps_state (passes : List Pass) (maxSweeps : ℕ) {limit : ℕ} {c : Circuit ℝ}
    (hc : c.Built) (hcustom : ∀ g ∈ c.gates, g.kind = .custom → g.IsUnitary)
    (hword : c.width < 64 ∨ limit < 64) :
    ∃ o, run passes maxSweeps c = .ok o ∧ o.after ≤ o.before ∧
      (c.simulated limit = false →
        ∃ e, c.state limit = .error e ∧ o.circuit.state limit = .error e) ∧
      (c.simulated limit = true → ∃ s s', c.state limit = .ok s ∧ o.circuit.state limit = .ok s' ∧
        s.amplitudes.size = 2 ^ c.width ∧ s'.amplitudes.size = 2 ^ c.width ∧
        ‖vector c.width (wave s'.amplitudes) - vector c.width (wave s.amplitudes)‖ ≤
          (o.before - o.after : ℕ) * 1e-10 ∧
        ((∀ θ ∈ runDropped passes maxSweeps c, θ = 0) → s' = s)) := by
  obtain ⟨gates', counts, used, hsweeps, hshrinks⟩ := describes_shrinks.sweeps maxSweeps
    (passes.map fun p => ⟨p, 0, 0⟩) fun g hg => (hc g hg).built
  obtain ⟨o, ho, hwidth, hgates, hbefore, hafter⟩ : ∃ o, run passes maxSweeps c = .ok o ∧
      o.circuit.width = c.width ∧ o.circuit.gates = gates' ∧ o.before = c.gates.length ∧
      o.after = gates'.length :=
    ⟨_, run_eq_ok.2 ⟨gates', counts, used, hsweeps, rfl⟩, rfl, rfl, rfl, rfl⟩
  have hsimulated : o.circuit.simulated limit = c.simulated limit := by
    rw [Circuit.simulated, Circuit.simulated, hwidth]
  refine ⟨o, ho, by rw [hbefore, hafter]; exact hshrinks.length, fun h => ?_, fun h => ?_⟩
  · refine ⟨_, Circuit.state_of_not_simulated h, ?_⟩
    rw [Circuit.state_of_not_simulated (hsimulated.trans h), hwidth]
  · have hn := Circuit.width_lt_of_simulated hword h
    -- all but custom gates are unitary by their closed forms
    have hunitary : ∀ g ∈ c.gates, g.UnitaryIn c.width := fun g hg =>
      ⟨hc g hg, if hk : g.kind = .custom then hcustom g hg hk else (hc g hg).isUnitary hn hk⟩
    obtain ⟨_, _, _, hsweeps', happrox⟩ := (describes_approximates hn).sweeps maxSweeps
      (passes.map fun p => ⟨p, 0, 0⟩) hunitary
    cases hsweeps.symm.trans hsweeps'
    have hbuilt : o.circuit.Built := fun g hg =>
      hwidth ▸ (happrox.unitary g (hgates ▸ hg)).toBuiltIn
    -- both circuits are simulated, and their waves are those of the operators
    obtain ⟨before, hstate, hsize, hwave⟩ := Circuit.state_of_built hc hn h
    obtain ⟨after, hstate', hsize', hwave'⟩ :=
      Circuit.state_of_built hbuilt (hwidth.trans_lt hn) (hsimulated.trans h)
    rw [hwidth] at hstate' hsize'
    rw [hgates] at hwave'
    refine ⟨_, _, hstate, hstate', hsize, hsize', ?_, fun hzero => ?_⟩
    · show ‖vector c.width (wave after) - vector c.width (wave before)‖ ≤ _
      rw [hwave, hwave', hbefore, hafter]
      exact happrox.norm_sub_le (norm_startWave c.width)
    · have heq : after = before := eq_of_vector_wave hsize' hsize (by
        rw [hwave, hwave']
        exact happrox.eq_of_forall_eq_zero hzero startWave)
      rw [heq]

/-- A custom exchange of the two states of a qubit, and a turn that is too small to be kept. -/
theorem run_keeps_state_of_flip_and_turn : ∃ flip turn : Gate ℝ,
    Gate.ofParts [0] [0, 1, 1, 0] [0, 0, 0, 0] = .ok flip ∧
    Gate.rotation .rz 0 1e-11 = .ok turn ∧
    ∃ o s s', run standardPasses defaultSweeps
        ((Circuit.blank 1 0).appendGates [flip, turn]) = .ok o ∧
      ((Circuit.blank 1 0).appendGates [flip, turn]).state 24 = .ok s ∧
      o.circuit.state 24 = .ok s' ∧
      ‖vector 1 (wave s'.amplitudes) - vector 1 (wave s.amplitudes)‖ ≤
        (o.before - o.after : ℕ) * 1e-10 := by
  have hflip : Gate.ofParts [0] [0, 1, 1, 0] [0, 0, 0, 0] =
      .ok ⟨.custom, [0], .empty, some (.ofRows [[(0 : Amplitude ℝ), 1], [1, 0]]), 1⟩ :=
    ofParts_one 0 0 1 1 0
  have hturn : Gate.rotation .rz 0 (1e-11 : ℝ) =
      .ok ⟨.rz, [0], SortedMap.empty.insert "lambda" 1e-11, none, 1⟩ :=
    make_eq_ok.2 ⟨rfl, FullFidelity.check, rfl, rfl⟩
  refine ⟨_, _, hflip, hturn, ?_⟩
  have hbuilt : ((Circuit.blank 1 0).appendGates [_, _] : Circuit ℝ).Built :=
    List.forall_mem_cons.2 ⟨⟨.ofParts hflip, by simp [Circuit.appendGates, Circuit.blank]⟩,
      List.forall_mem_singleton.2
        ⟨.rotation hturn, by simp [Circuit.appendGates, Circuit.blank]⟩⟩
  -- the exchange is its own inverse
  have hunitary : Gate.IsUnitary
      ⟨.custom, [0], .empty, some (.ofRows [[(0 : Amplitude ℝ), 1], [1, 0]]), 1⟩ := by
    rw [IsUnitary, Matrix.mem_unitaryGroup_iff]
    show (SquareMatrix.ofRows _).toMatrix 2 * star ((SquareMatrix.ofRows _).toMatrix 2) = 1
    rw [SquareMatrix.toMatrix_ofRows_two]
    ext i j
    fin_cases i <;> fin_cases j <;> simp [Matrix.mul_apply]
  obtain ⟨o, ho, -, -, hstates⟩ := run_keeps_state standardPasses defaultSweeps hbuilt
    (List.forall_mem_cons.2 ⟨fun _ => hunitary, List.forall_mem_singleton.2 fun h => by cases h⟩)
    (Or.inr (show 24 < 64 by decide))
  obtain ⟨s, s', hs, hs', -, -, hnorm, -⟩ := hstates rfl
  exact ⟨o, s, s', ho, hs, hs', hnorm⟩

end QuantumWorkbench.Simplification
