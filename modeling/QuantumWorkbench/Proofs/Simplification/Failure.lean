import Mathlib
import QuantumWorkbench.Proofs.Gate.Noise
import QuantumWorkbench.Proofs.Simplification.Steps

/-!
# How a simplification fails

Over doubles a simplification can fail, and only over a fidelity that is lost when two rotations are
merged. What the fidelities of the rotations of one kind on one qubit come to when all are merged is
bounded below before the run, and no step lowers the bound; so a run whose bounds are large enough
does not fail.
-/

namespace QuantumWorkbench

namespace Simplification

open Gate Double

variable {a b g m : Gate Float} {gates gates' : List (Gate Float)} {kind : GateKind} {q : ℕ}

/-! ## Merging -/

/-- **Two rotations are merged where the product of their fidelities is in the range**, and
otherwise the fault shows the lost product. -/
theorem mergeRotations_double (ha : a.Built) (hb : b.Built) (hr : a.isRotation = true) :
    (InUnit (a.fidelity * b.fidelity) ∧ ∃ m, mergeRotations a b = .ok m) ∨
      (Lost (a.fidelity * b.fidelity) ∧
        mergeRotations a b = .error (.badFidelity (a.fidelity * b.fidelity))) := by
  have hmerge := mergeRotations_eq ha.wellFormed hb.wellFormed FullFidelity.check hr
  rw [checkFidelity_double] at hmerge
  rcases inUnit_or_lost_mul ha.inUnit_or_lost hb.inUnit_or_lost with hunit | hlost
  · rw [if_pos hunit] at hmerge
    exact .inl ⟨hunit, _, hmerge⟩
  · rw [if_neg (not_inUnit_of_lost hlost)] at hmerge
    exact .inr ⟨hlost, hmerge⟩

/-- Every step keeps constructed gates, and a merge that fails shows a lost fidelity. -/
theorem keeps_built_double : Keeps (α := Float) (fun gates => ∀ g ∈ gates, g.Built)
    fun e => ∃ x, e = .badFidelity x ∧ Lost x where
  wellFormed := wellFormed_of_built
  step hgates hstep := Steps.forall_mem mergeClosed_built (.single hstep) hgates
  merge := by
    intro before a b after hgates hr _ _
    have ha := hgates a (by simp)
    have hb := hgates b (by simp)
    rcases mergeRotations_double ha hb hr with ⟨-, m, hm⟩ | ⟨hlost, herror⟩
    · rw [hm]
      trivial
    · rw [herror]
      exact ⟨_, rfl, hlost⟩

/-! ## Reserves -/

/-- What a gate brings into the fidelity of a merged rotation, with the rounding of one product; one
where it is not a rotation of that kind on that qubit. -/
def share (kind : GateKind) (q : ℕ) (g : Gate Float) : ℚ :=
  if g.kind = kind ∧ g.qubits = [q] then value g.fidelity * kept else 1

/-- What the fidelities of the rotations of one kind on one qubit come to at the least. -/
def reserve (kind : GateKind) (q : ℕ) (gates : List (Gate Float)) : ℚ :=
  (gates.map (share kind q)).prod

theorem value_fidelity_mem (hg : g.Built) : 0 ≤ value g.fidelity ∧ value g.fidelity ≤ 1 := by
  rcases hg.inUnit_or_lost with hunit | hlost
  · exact ⟨hunit.value_pos.le, hunit.value_le_one⟩
  · rw [value_of_lost hlost]
    exact ⟨le_rfl, zero_le_one⟩

theorem share_mem (hg : g.Built) : 0 ≤ share kind q g ∧ share kind q g ≤ 1 := by
  obtain ⟨hnonneg, hle⟩ := value_fidelity_mem hg
  unfold share
  split
  · exact ⟨mul_nonneg hnonneg kept_pos.le, mul_le_one₀ hle kept_pos.le kept_le_one⟩
  · exact ⟨zero_le_one, le_rfl⟩

theorem reserve_mem (kind : GateKind) (q : ℕ) (hgates : ∀ g ∈ gates, g.Built) :
    0 ≤ reserve kind q gates ∧ reserve kind q gates ≤ 1 := by
  induction gates with
  | nil => exact ⟨zero_le_one, le_rfl⟩
  | cons g gs ih =>
    obtain ⟨hg, hgs⟩ := List.forall_mem_cons.1 hgates
    obtain ⟨hnonneg, hle⟩ := ih hgs
    have hshare : 0 ≤ share kind q g ∧ share kind q g ≤ 1 := share_mem hg
    rw [reserve, List.map_cons, List.prod_cons, ← reserve]
    exact ⟨mul_nonneg hshare.1 hnonneg, mul_le_one₀ hshare.2 hnonneg hle⟩

theorem reserve_append (gates gates' : List (Gate Float)) :
    reserve kind q (gates ++ gates') = reserve kind q gates * reserve kind q gates' := by
  rw [reserve, List.map_append, List.prod_append]
  rfl

/-- The reserve of a list is no more than that of a part of it. -/
theorem reserve_le_part {before part after : List (Gate Float)}
    (hgates : ∀ g ∈ before ++ part ++ after, g.Built) :
    reserve kind q (before ++ part ++ after) ≤ reserve kind q part := by
  simp only [List.forall_mem_append] at hgates
  obtain ⟨⟨hbefore, hpart⟩, hafter⟩ := hgates
  obtain ⟨hnonneg, -⟩ := reserve_mem kind q hpart
  obtain ⟨hnonneg', hle'⟩ := reserve_mem kind q hbefore
  obtain ⟨hnonneg'', hle''⟩ := reserve_mem kind q hafter
  rw [reserve_append, reserve_append]
  calc reserve kind q before * reserve kind q part * reserve kind q after
      ≤ reserve kind q before * reserve kind q part :=
        mul_le_of_le_one_right (mul_nonneg hnonneg' hnonneg) hle''
    _ ≤ reserve kind q part := mul_le_of_le_one_left hnonneg hle'

/-- Two rotations with a large reserve have fidelities in the range, and their product is not small:
it loses no more than rounding takes off. -/
theorem reserve_pair (ha : a.Built) (hb : b.Built) (hkind : a.kind = kind ∧ a.qubits = [q])
    (hkind' : b.kind = kind ∧ b.qubits = [q]) (hnormal : leastNormal ≤ reserve kind q [a, b]) :
    InUnit (a.fidelity * b.fidelity) ∧
      reserve kind q [a, b] ≤ value (a.fidelity * b.fidelity) * kept := by
  have hreserve : reserve kind q [a, b] = value a.fidelity * value b.fidelity * kept * kept := by
    simp only [reserve, share, List.map_cons, List.map_nil, List.prod_cons, List.prod_nil,
      if_pos hkind, if_pos hkind']
    ring
  rw [hreserve] at hnormal ⊢
  obtain ⟨hnonneg, hle⟩ := value_fidelity_mem ha
  obtain ⟨hnonneg', hle'⟩ := value_fidelity_mem hb
  have hproduct : leastNormal ≤ value a.fidelity * value b.fidelity := by
    have hscaled := mul_nonneg (mul_nonneg hnonneg hnonneg') kept_pos.le
    calc leastNormal ≤ value a.fidelity * value b.fidelity * kept * kept := hnormal
      _ ≤ value a.fidelity * value b.fidelity * kept := mul_le_of_le_one_right hscaled kept_le_one
      _ ≤ value a.fidelity * value b.fidelity :=
        mul_le_of_le_one_right (mul_nonneg hnonneg hnonneg') kept_le_one
  -- a lost fidelity has no value, so neither is lost, and the product rounds with a small loss
  have hne : value a.fidelity * value b.fidelity ≠ 0 :=
    (leastNormal_pos.trans_le hproduct).ne'
  have hunit := inUnit_of_value_ne_zero ha.inUnit_or_lost (left_ne_zero_of_mul hne)
  have hunit' := inUnit_of_value_ne_zero hb.inUnit_or_lost (right_ne_zero_of_mul hne)
  have hrounds := rounds_mul hunit hunit'
  refine ⟨hrounds.inUnit_iff.2 (halfLeast_lt_leastNormal.trans_le hproduct), ?_⟩
  exact mul_le_mul_of_nonneg_right (hrounds.mul_kept_le hproduct) kept_pos.le

/-- **No step lowers a reserve**, as long as it is large. -/
theorem reserve_le_of_step (hgates : ∀ g ∈ gates, g.Built)
    (hnormal : leastNormal ≤ reserve kind q gates) (h : Step gates gates') :
    reserve kind q gates ≤ reserve kind q gates' := by
  obtain ⟨before, hrule, after⟩ := h
  have hpart := hnormal.trans (reserve_le_part hgates)
  simp only [List.forall_mem_append] at hgates
  obtain ⟨⟨hbefore, hgates⟩, hafter⟩ := hgates
  rw [reserve_append, reserve_append, reserve_append, reserve_append]
  refine mul_le_mul_of_nonneg_right (mul_le_mul_of_nonneg_left ?_ (reserve_mem kind q hbefore).1)
    (reserve_mem kind q hafter).1
  -- only the gates that the rule is about can change what they hold in reserve
  cases hrule with
  | drop g => exact (reserve_mem kind q hgates).2
  | exchange =>
    simp only [reserve, List.map_cons, List.map_nil, List.prod_cons, List.prod_nil, mul_one]
    exact (mul_comm _ _).le
  | @merge a b m hr hkind hq hm =>
    have ha := hgates a (by simp)
    obtain ⟨hkindm, hqm⟩ := mergeRotations_qubits (ha.wellFormed.rotation_qubits hr) hm
    rw [← ha.wellFormed.rotation_qubits hr] at hqm
    by_cases hmatch : a.kind = kind ∧ a.qubits = [q]
    · have hmatch' : b.kind = kind ∧ b.qubits = [q] := by rwa [← hkind, ← hq]
      refine (reserve_pair ha (hgates b (by simp)) hmatch hmatch' hpart).2.trans ?_
      rw [← (fidelity_mergeRotations hm).2]
      simp [reserve, share, hkindm, hqm, hmatch]
    · simp [reserve, share, hkindm, hqm, ← hkind, ← hq, hmatch]

/-- For every kind of rotation and every qubit, the reserve is stored with all of its bits. -/
def HasReserves (gates : List (Gate Float)) : Prop :=
  ∀ kind q, kind.isRotation = true → leastNormal ≤ reserve kind q gates

/-- Every step keeps constructed gates and large reserves, and then merging does not fail. -/
theorem keeps_reserves : Keeps (α := Float)
    (fun gates => (∀ g ∈ gates, g.Built) ∧ HasReserves gates) fun _ => False where
  wellFormed h := wellFormed_of_built h.1
  step h hstep := ⟨keeps_built_double.step h.1 hstep, fun kind q hr =>
    (h.2 kind q hr).trans (reserve_le_of_step h.1 (h.2 kind q hr) hstep)⟩
  merge := by
    intro before a b after hgates hr hkind hq
    have ha := hgates.1 a (by simp)
    have hb := hgates.1 b (by simp)
    have hqa := ha.wellFormed.rotation_qubits hr
    have hlarge := (hgates.2 a.kind (a.qubits.headD 0) hr).trans (reserve_le_part hgates.1)
    obtain ⟨hunit, -⟩ := reserve_pair ha hb ⟨rfl, hqa⟩ ⟨hkind.symm, hq.symm.trans hqa⟩ hlarge
    rcases mergeRotations_double ha hb hr with ⟨-, m, hm⟩ | ⟨hlost, -⟩
    · rw [hm]
      trivial
    · exact absurd hunit (not_inUnit_of_lost hlost)

/-! ## Runs -/

/-- **Fidelities and runs over doubles.** The fidelity of a constructed gate is in the range or
lost, and noise loses it exactly where the level is undefined or the product is at most half the
least double; a defined level never does so unless the fidelity was very small. A run on constructed
gates fails over a lost fidelity only, whichever passes are applied and however often, and it does
not fail where for each qubit the fidelities of its rotations of one kind leave a reserve. -/
theorem run_fails_only_over_lost {g : Gate Float} (hg : g.Built) (level : Float) {c : Circuit Float}
    (hgates : ∀ g ∈ c.gates, g.Built) (passes : List Pass) (maxSweeps : ℕ) :
    (InUnit g.fidelity ∨ Lost g.fidelity) ∧
    (InUnit g.fidelity →
      (InUnit (g.withNoise level).fidelity ↔
        level ≠ .nan ∧ halfLeast < value g.fidelity * value (noiseFactor level)) ∧
      (level ≠ .nan → leastNormal ≤ value g.fidelity → InUnit (g.withNoise level).fidelity)) ∧
    (∀ e, run passes maxSweeps c = .error e → ∃ x, e = .badFidelity x ∧ Lost x) ∧
    (HasReserves c.gates → ∃ o, run passes maxSweeps c = .ok o) := by
  refine ⟨hg.inUnit_or_lost, fun hunit => ⟨inUnit_withNoise_iff hunit level,
    inUnit_withNoise hunit⟩, fun e he => ?_, fun hreserves => ?_⟩
  · have hrun := keeps_built_double.run passes maxSweeps hgates
    rwa [he] at hrun
  · obtain ⟨o, ho, -⟩ := (keeps_reserves.run passes maxSweeps ⟨hgates, hreserves⟩).exists_ok
    exact ⟨o, ho⟩

/-- The circuit of some gates on one qubit. -/
def onOneQubit {α : Type} [Scalar α] (gates : List (Gate α)) : Circuit α :=
  (Circuit.blank 1 0).appendGates gates

/-- A turn of the only qubit. -/
def turn {α : Type} [Scalar α] (angle : α) : Gate α :=
  ⟨.rx, [0], SortedMap.empty.insert "theta" angle, none, 1⟩

theorem rotation_turn (angle : Float) : Gate.rotation .rx 0 angle = .ok (turn angle) :=
  make_eq_ok.2 ⟨rfl, FullFidelity.check, rfl, rfl⟩

theorem built_turn (angle : Float) : (turn angle).Built := .rotation (rotation_turn angle)

/-- A turn that half of its fidelity is left of, and the way back. -/
def halvedTurns : List (Gate Float) := [(turn 0.3).withNoise 0.5, (turn (-0.3)).withNoise 0.5]

theorem share_halved (angle : Float) (kind : GateKind) (q : ℕ) :
    4⁻¹ ≤ share kind q ((turn angle).withNoise 0.5) := by
  have hvalue : 2⁻¹ ≤ value (1 * noiseFactor 0.5) := by decide +kernel
  unfold share
  split_ifs
  · calc (4⁻¹ : ℚ) ≤ 2⁻¹ * kept := by norm_num [kept]
      _ ≤ value (1 * noiseFactor 0.5) * kept := mul_le_mul_of_nonneg_right hvalue kept_pos.le
  · norm_num

theorem hasReserves_halvedTurns : HasReserves halvedTurns := by
  intro kind q _
  have hfirst := share_halved 0.3 kind q
  have hsecond := share_halved (-0.3) kind q
  calc leastNormal ≤ 2 ^ (-4 : ℤ) := zpow_le_zpow_right₀ one_le_two (by decide)
    _ = 4⁻¹ * 4⁻¹ := by norm_num
    _ ≤ share kind q ((turn 0.3).withNoise 0.5) * share kind q ((turn (-0.3)).withNoise 0.5) :=
      mul_le_mul hfirst hsecond (by norm_num) (hfirst.trans' (by norm_num))
    _ = reserve kind q halvedTurns := by simp [reserve, halvedTurns]

theorem run_fails_only_over_lost_halved :
    (turn 0.3 : Gate Float).Built ∧ InUnit ((turn 0.3).withNoise 0.5).fidelity ∧
      (∀ g ∈ halvedTurns, g.Built) ∧ HasReserves halvedTurns ∧
      ∃ o, run standardPasses defaultSweeps (onOneQubit halvedTurns) = .ok o := by
  have hbuilt : ∀ g ∈ halvedTurns, g.Built := by
    simp only [halvedTurns, List.forall_mem_cons]
    exact ⟨(built_turn _).withNoise _, (built_turn _).withNoise _, List.forall_mem_nil _⟩
  have hunit : InUnit (1 : Float) := by decide +kernel
  have hnormal : leastNormal ≤ value 1 := (zpow_le_one_of_nonpos₀ one_le_two (by decide)).trans
    (show 1 ≤ value 1 by decide +kernel)
  obtain ⟨-, hnoise, -, hruns⟩ := run_fails_only_over_lost (built_turn 0.3) 0.5
    (show ∀ g ∈ (onOneQubit halvedTurns).gates, g.Built from hbuilt) standardPasses defaultSweeps
  exact ⟨built_turn 0.3, (hnoise hunit).2 (by decide +kernel) hnormal, hbuilt,
    hasReserves_halvedTurns, hruns hasReserves_halvedTurns⟩

/-- The fidelity that a fault shows. -/
def shownFidelity? : Except (CircuitError Float) (Outcome Float) → Option Float
  | .error (.badFidelity x) => some x
  | _ => none

theorem eq_error_of_shownFidelity? {r : Except (CircuitError Float) (Outcome Float)} {x : Float}
    (h : shownFidelity? r = some x) : r = .error (.badFidelity x) := by
  unfold shownFidelity? at h
  split at h
  · rw [Option.some.inj h]
  · cases h

/-- A turn that went through an undefined level of noise, and the way back. -/
def undefinedTurns : List (Gate Float) := [(turn 0.3).withNoise .nan, turn (-0.3)]

/-- A fidelity in the range whose square is not. -/
def tinyFidelity : Float := 1e-200

/-- A turn and the way back, both with a very small fidelity. -/
def tinyTurns : List (Gate Float) :=
  [{ turn 0.3 with fidelity := tinyFidelity }, { turn (-0.3) with fidelity := tinyFidelity }]

/-- **Fidelities are lost and runs fail**: an undefined level of noise takes a fidelity out of the
range, and two fidelities in the range can have a product that is rounded to zero. -/
theorem run_turns_fails :
    (∀ g ∈ undefinedTurns, g.Built) ∧ ¬ (∀ g ∈ undefinedTurns, InUnit g.fidelity) ∧
      run standardPasses defaultSweeps (onOneQubit undefinedTurns) =
        .error (.badFidelity .nan) ∧
    (∀ g ∈ tinyTurns, g.Built) ∧ (∀ g ∈ tinyTurns, InUnit g.fidelity) ∧
      run standardPasses defaultSweeps (onOneQubit tinyTurns) = .error (.badFidelity 0) := by
  have htiny : InUnit tinyFidelity := by decide +kernel
  have hchecked (angle : Float) : Gate.Built { turn angle with fidelity := tinyFidelity } :=
    (built_turn angle).withFidelity (withFidelity_eq_ok.2 ⟨if_pos htiny, rfl⟩)
  refine ⟨?_, fun h => ?_, eq_error_of_shownFidelity? (by decide +kernel), ?_, ?_,
    eq_error_of_shownFidelity? (by decide +kernel)⟩
  · simp only [undefinedTurns, List.forall_mem_cons]
    exact ⟨(built_turn _).withNoise _, built_turn _, List.forall_mem_nil _⟩
  · have hfirst : InUnit ((turn 0.3).withNoise .nan).fidelity := h _ List.mem_cons_self
    exact ((inUnit_withNoise_iff (by decide +kernel) _).1 hfirst).1 rfl
  · simp only [tinyTurns, List.forall_mem_cons]
    exact ⟨hchecked _, hchecked _, List.forall_mem_nil _⟩
  · simp only [tinyTurns, List.forall_mem_cons]
    exact ⟨htiny, htiny, List.forall_mem_nil _⟩

end Simplification

end QuantumWorkbench
