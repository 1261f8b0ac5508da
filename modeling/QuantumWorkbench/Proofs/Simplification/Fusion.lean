import Mathlib
import QuantumWorkbench.Proofs.Gate.Fidelity
import QuantumWorkbench.Proofs.Gate.Operator
import QuantumWorkbench.Proofs.Simplification.Cancellation
import QuantumWorkbench.Proofs.Simplification.Fusing
import QuantumWorkbench.Proofs.Simplification.Reordering
import QuantumWorkbench.Proofs.Simplification.Sweep

/-!
# What fusing rotations does

Two rotations that are merged turn by the sum of their angles, and over the real numbers merging
never fails. The rotations held back are on different qubits, so putting them out late and in
another order changes nothing: fusing keeps the operator of a list of gates.
-/

namespace QuantumWorkbench

namespace Simplification

open Gate

/-! ## Merging over the real numbers -/

/-- **Merging rotations of one kind never fails**, and the angles add up. -/
theorem exists_mergeRotations {a b : Gate ℝ} (ha : a.Built) (hb : b.Built)
    (hr : a.isRotation = true) (hkind : a.kind = b.kind) :
    ∃ m, mergeRotations a b = .ok m ∧ m.angle.getD 0 = turnSum a b := by
  have hproduct : checkFidelity (a.fidelity * b.fidelity) = .ok () :=
    checkFidelity_real.2 ⟨mul_pos ha.fidelity.1 hb.fidelity.1,
      mul_le_one₀ ha.fidelity.2 hb.fidelity.1.le hb.fidelity.2⟩
  have hmerge := mergeRotations_eq ha.wellFormed hb.wellFormed FullFidelity.check hr
  rw [hproduct] at hmerge
  refine ⟨_, hmerge, ?_⟩
  obtain ⟨key, hkey⟩ := Option.isSome_iff_exists.1 hr
  -- angles are added, unlike the time of an evolution
  have htime : key ≠ timeKey := by
    cases hk : a.kind <;> simp [hk, GateKind.angleKey] at hkey <;> subst hkey <;> decide
  have hkeep := SortedMap.get?_erase_of_ne (addParameters a.parameters b.parameters)
    (fidelityKey_ne_of_angleKey hkey).symm
  simp only [turnSum, angle, ← hkind, hkey, Option.map_some, Option.getD_some, hkeep,
    get?_addParameters, if_neg htime]
  cases SortedMap.get? b.parameters key <;> simp

/-- The merged rotation does what the two do one after the other. -/
theorem operator_mergeRotations {a b m : Gate ℝ} (ha : a.Built) (hb : b.Built)
    (hr : a.isRotation = true) (hkind : a.kind = b.kind) (hq : a.qubits = b.qubits)
    (hm : mergeRotations a b = .ok m) : m.operator = b.operator ∘ₗ a.operator := by
  obtain ⟨m', hm', hangle⟩ := exists_mergeRotations ha hb hr hkind
  cases hm.symm.trans hm'
  obtain ⟨hbuilt, hkindm, hqubits, -⟩ := mergeRotations_eq_ok hm
  have hrb : b.isRotation = true := by rw [isRotation, ← hkind]; exact hr
  have hrm : m.isRotation = true := by rw [isRotation, hkindm]; exact hr
  have hqm : m.qubits = a.qubits := by rw [hqubits, ha.wellFormed.rotation_qubits hr]; rfl
  obtain ⟨axis, hax, hopa⟩ := operator_rotation ha.wellFormed hr
  obtain ⟨axis', hbx, hopb⟩ := operator_rotation hb.wellFormed hrb
  obtain ⟨axis'', hmx, hopm⟩ := operator_rotation hbuilt.wellFormed hrm
  -- all three turn about the axis of the first
  rw [← hkind, hax] at hbx
  rw [hkindm, hax] at hmx
  cases hbx
  cases hmx
  rw [hopm, hopa, hopb, hangle, hqm, ← hq, turnAt_comp, turnSum, add_comm]

/-! ## Fusing over the real numbers -/

/-- **Fusing constructed gates never fails**. -/
theorem exists_fusing {pending : Pending ℝ} {gates : List (Gate ℝ)} (hp : Held Built pending)
    (hgates : ∀ g ∈ gates, g.Built) : ∃ out, Fusing pending gates out := by
  induction gates generalizing pending with
  | nil => exact ⟨_, .done pending⟩
  | cons g gs ih =>
    obtain ⟨hg, hgs⟩ := List.forall_mem_cons.1 hgates
    cases hr : g.isRotation with
    | false =>
      obtain ⟨rest, hrest⟩ := ih (held_empty _) hgs
      exact ⟨_, .release hr hrest⟩
    | true =>
      have hq := hg.wellFormed.rotation_qubits hr
      -- what is held on its qubit decides what becomes of a rotation
      cases hget : pending.get? (g.qubits.headD 0) with
      | none =>
        obtain ⟨out, hout⟩ := ih (hp.insert hg hr hq) hgs
        exact ⟨out, .hold hr hq hget hout⟩
      | some held =>
        obtain ⟨hbuilt, hheldr, hheldq⟩ := hp.get? hget
        by_cases hkind : held.kind = g.kind
        · obtain ⟨merged, hmerged, -⟩ := exists_mergeRotations hbuilt hg hheldr hkind
          obtain ⟨out, hout⟩ := ih (hp.merge mergeClosed_built hg hq hget hmerged) hgs
          exact ⟨out, .merge hr hq hget hkind hmerged hout⟩
        · obtain ⟨out, hout⟩ := ih (hp.insert hg hr hq) hgs
          exact ⟨held :: out, .replace hr hq hget hkind hout⟩

theorem mergeClosed_unitaryIn {n : ℕ} (hn : n < 64) : MergeClosed (UnitaryIn n) := by
  intro a b merged ha hb hr hq h
  obtain ⟨-, hkind, -, -⟩ := mergeRotations_eq_ok h
  have hinside := mergeClosed_builtIn n ha.toBuiltIn hb.toBuiltIn hr hq h
  have hmr : merged.kind.isRotation = true := by rw [hkind]; exact hr
  exact ⟨hinside, hinside.isUnitary hn (GateKind.ne_custom_of_isRotation hmr)⟩

/-- A rotation commutes with those held back at other qubits. -/
theorem Held.operator_comm {P : Gate ℝ → Prop} {pending : Pending ℝ} (hp : Held P pending) {q : ℕ}
    {g : Gate ℝ} (hq : g.qubits = [q]) {part : List (ℕ × Gate ℝ)}
    (hpart : ∀ e ∈ part, e ∈ pending.entries ∧ e.1 ≠ q) :
    operatorAll (part.map Prod.snd) ∘ₗ g.operator =
      g.operator ∘ₗ operatorAll (part.map Prod.snd) := by
  apply operatorAll_comm
  intro h hh
  obtain ⟨e, he, rfl⟩ := List.mem_map.1 hh
  obtain ⟨hmem, hne⟩ := hpart e he
  refine operator_comm_of_disjoint ?_
  rw [hq, (hp e hmem).2.2]
  simpa using Ne.symm hne

section Insert

variable {P : Gate ℝ → Prop} {pending : Pending ℝ} {q : ℕ} {g held m : Gate ℝ}

/-- **Holding back at a qubit** a gate that acts after what the qubit holds acts after all that is
held back. -/
theorem Held.operatorAll_insert (hp : Held P pending) (hq : g.qubits = [q])
    (hm : m.operator = g.operator ∘ₗ operatorAll (pending.get? q).toList) :
    operatorAll (pending.insert q m).values = g.operator ∘ₗ operatorAll pending.values := by
  obtain ⟨before, after, hvalues, hinsert, hother⟩ := pending.exists_values_split q
  -- the gate was to act after all that is held back; it is put behind smaller qubits only
  have hafter := hp.operator_comm hq fun e he => hother e (List.mem_append_right _ he)
  simp only [hvalues, hinsert, operatorAll_append, operatorAll_cons, hm, LinearMap.comp_assoc]
  rw [← LinearMap.comp_assoc _ g.operator, hafter, LinearMap.comp_assoc]

/-- **Taking the place at a qubit**: what the qubit held acts first of all. -/
theorem Held.operatorAll_replace (hp : Held P pending) (hq : g.qubits = [q])
    (hheld : pending.get? q = some held) :
    operatorAll (pending.insert q g).values ∘ₗ held.operator =
      g.operator ∘ₗ operatorAll pending.values := by
  obtain ⟨-, -, hheldq⟩ := hp.get? hheld
  obtain ⟨before, after, hvalues, hinsert, hother⟩ := pending.exists_values_split q
  -- it was held back behind those of smaller qubits
  have hbefore := hp.operator_comm hheldq fun e he => hother e (List.mem_append_left _ he)
  have hafter := hp.operator_comm hq fun e he => hother e (List.mem_append_right _ he)
  simp only [hvalues, hinsert, hheld, Option.toList_some, operatorAll_append, operatorAll_cons,
    operatorAll_nil, LinearMap.id_comp, LinearMap.comp_assoc, hbefore]
  rw [← LinearMap.comp_assoc _ g.operator, hafter, LinearMap.comp_assoc]

end Insert

/-- **Fusing keeps the operator**, on top of the rotations held back. -/
theorem Fusing.operatorAll_eq {pending : Pending ℝ} {gates out : List (Gate ℝ)}
    (h : Fusing pending gates out) (hp : Held Built pending) (hgates : ∀ g ∈ gates, g.Built) :
    operatorAll out = operatorAll gates ∘ₗ operatorAll pending.values := by
  induction h with
  | done pending => rfl
  | @hold pending g gs q out hr hq hnone _ ih =>
    obtain ⟨hg, hgs⟩ := List.forall_mem_cons.1 hgates
    have hinsert := hp.operatorAll_insert (m := g) hq (by rw [hnone]; rfl)
    rw [ih (hp.insert hg hr hq) hgs, hinsert, operatorAll_cons, LinearMap.comp_assoc]
  | @merge pending g held merged gs q out hr hq hheld hkind hmerged _ ih =>
    obtain ⟨hg, hgs⟩ := List.forall_mem_cons.1 hgates
    obtain ⟨hbuilt, hheldr, hheldq⟩ := hp.get? hheld
    -- the merged rotation stands at the place of the one held back
    have hop := operator_mergeRotations hbuilt hg hheldr hkind (hheldq.trans hq.symm) hmerged
    have hinsert := hp.operatorAll_insert hq (hop.trans (by rw [hheld]; rfl))
    rw [ih (hp.merge mergeClosed_built hg hq hheld hmerged) hgs, hinsert, operatorAll_cons,
      LinearMap.comp_assoc]
  | @replace pending g held gs q out hr hq hheld _ _ ih =>
    obtain ⟨hg, hgs⟩ := List.forall_mem_cons.1 hgates
    rw [operatorAll_cons, ih (hp.insert hg hr hq) hgs, LinearMap.comp_assoc,
      hp.operatorAll_replace hq hheld, operatorAll_cons, LinearMap.comp_assoc]
  | release _ _ ih =>
    obtain ⟨-, hgs⟩ := List.forall_mem_cons.1 hgates
    rw [operatorAll_append, operatorAll_cons, operatorAll_cons, ih (held_empty _) hgs]
    rfl

/-! ## No pass fails -/

/-- Constructed gates take the place of gates, and none is added. -/
structure Shrinks (gates gates' : List (Gate ℝ)) : Prop where
  built : ∀ g ∈ gates', g.Built
  length : gates'.length ≤ gates.length

/-- Every pass succeeds on constructed gates. -/
theorem Pass.exists_apply (pass : Pass) {gates : List (Gate ℝ)} (hgates : ∀ g ∈ gates, g.Built) :
    ∃ gates' changed, pass.apply gates = .ok (gates', changed) ∧ Shrinks gates gates' := by
  cases pass with
  | dropDead =>
    exact ⟨_, _, rfl, fun g hg => hgates g (List.mem_of_mem_filter hg), List.length_filter_le _ _⟩
  | fuse =>
    obtain ⟨fused, hfusing⟩ := exists_fusing (held_empty _) hgates
    refine ⟨fused, fused != gates, ?_, hfusing.forall_mem mergeClosed_built (held_empty _) hgates,
      by simpa [SortedMap.values, SortedMap.empty] using hfusing.length_le⟩
    rw [Pass.apply, (fuse_eq_ok_iff (wellFormed_of_built hgates)).2 hfusing]
    rfl
  | cancelInverses lookahead =>
    have hsub := cancelFrom_sublist lookahead 0 gates
    exact ⟨_, _, rfl, fun g hg => hgates g (hsub.subset hg), hsub.length_le⟩
  | reorder =>
    have hperm := reorder_perm gates
    exact ⟨_, _, rfl, fun g hg => hgates g (hperm.subset hg), hperm.length_eq.le⟩

/-- No pass fails on constructed gates. -/
theorem describes_shrinks : Describes Built (fun gates gates' _ => Shrinks gates gates') where
  refl hgates := ⟨hgates, le_rfl⟩
  trans h h' := ⟨h'.built, h'.length.trans h.length⟩
  forall_mem h := h.built
  pass pass _ hgates := pass.exists_apply hgates

end Simplification

end QuantumWorkbench
