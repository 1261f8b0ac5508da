import Mathlib
import QuantumWorkbench.Proofs.Simplification.Fusion
import QuantumWorkbench.Proofs.Simplification.Settling

/-!
# The pipeline reaches a normal form

Over the real numbers the sweeps of the standard passes come to an end by themselves, however long
the list of gates is, and the list they leave is in normal form for all four passes at once.
-/

namespace QuantumWorkbench.Simplification

open Gate

/-! ## Nothing to merge -/

section Unmerged

variable {α : Type} [Scalar α] {pending : Pending α} {gates out : List (Gate α)}

/-- Fusing that takes no gate away goes on without merging: a rotation of another kind than the one
held back takes its place, and any other gate clears all places. -/
theorem Fusing.exists_tail {g : Gate α} (h : Fusing pending (g :: gates) out)
    (hlen : out.length = pending.values.length + (g :: gates).length) :
    ∃ pending' out', Fusing pending' gates out' ∧
      out'.length = pending'.values.length + gates.length ∧
      (g.isRotation = true → pending' = pending.insert (place g) g ∧
        ∀ held, pending.get? (place g) = some held → held.kind ≠ g.kind) := by
  cases h with
  | hold _ hq hnone rest =>
    rw [List.length_cons] at hlen
    refine ⟨_, _, rest, ?_, fun _ => ⟨by rw [place_eq hq], by rw [place_eq hq, hnone]; simp⟩⟩
    rw [SortedMap.length_values_insert_of_none _ hnone]
    omega
  | merge _ _ hheld _ _ rest =>
    -- a gate would be gone
    have hle := rest.length_le
    rw [SortedMap.length_values_insert_of_some _ hheld] at hle
    rw [List.length_cons] at hlen
    omega
  | replace _ hq hheld hkind rest =>
    rw [List.length_cons, List.length_cons] at hlen
    refine ⟨_, _, rest, ?_, fun _ => ⟨by rw [place_eq hq], fun x hx => ?_⟩⟩
    · rw [SortedMap.length_values_insert_of_some _ hheld]
      omega
    · rw [place_eq hq, hheld] at hx
      cases hx
      exact hkind
  | release hr rest =>
    simp only [List.length_append, List.length_cons] at hlen
    refine ⟨_, _, rest, ?_, fun hr' => absurd hr' (by simp [hr])⟩
    rw [show (SortedMap.empty : Pending α).values.length = 0 from rfl]
    omega

/-- The same from any position on. -/
theorem Fusing.exists_suffix {before : List (Gate α)} (h : Fusing pending (before ++ gates) out)
    (hlen : out.length = pending.values.length + (before ++ gates).length) :
    ∃ pending' out', Fusing pending' gates out' ∧
      out'.length = pending'.values.length + gates.length := by
  induction before generalizing pending out with
  | nil => exact ⟨pending, out, h, hlen⟩
  | cons g before ih =>
    obtain ⟨_, _, hrest, hlen', -⟩ := h.exists_tail hlen
    exact ih hrest hlen'

/-- A rotation that is held back meets no rotation of its own kind. -/
theorem Fusing.kind_ne {between after : List (Gate α)} {held b : Gate α}
    (h : Fusing pending (between ++ b :: after) out)
    (hlen : out.length = pending.values.length + (between ++ b :: after).length)
    (hheld : pending.get? (place b) = some held) (hb : b.isRotation = true)
    (hbetween : ∀ g ∈ between, g.isRotation = true ∧ place g ≠ place b) : held.kind ≠ b.kind := by
  induction between generalizing pending out with
  | nil =>
    obtain ⟨_, _, -, -, hrotation⟩ := h.exists_tail hlen
    exact (hrotation hb).2 held hheld
  | cons g between ih =>
    obtain ⟨⟨hr, hne⟩, hbetween⟩ := List.forall_mem_cons.1 hbetween
    obtain ⟨_, _, hrest, hlen', hrotation⟩ := h.exists_tail hlen
    obtain ⟨rfl, -⟩ := hrotation hr
    refine ih hrest hlen' ?_ hbetween
    rw [SortedMap.get?_insert_of_ne _ (Ne.symm hne), hheld]

end Unmerged

/-! ## Normal forms -/

/-- The normal form of the standard passes. -/
structure Normal {α : Type} [Scalar α] (gates : List (Gate α)) : Prop where
  /-- No identity, and no rotation by less than the tolerance. -/
  alive : ∀ g ∈ gates, g.kind ≠ .identity ∧
    ∀ angle, g.angle = some angle → ¬ Scalar.abs angle < (Scalar.tolerance : α)
  /-- No two rotations of a qubit about one axis with only rotations of other qubits between. -/
  unmerged : ∀ before a between b after, gates = before ++ a :: (between ++ b :: after) →
    a.isRotation = true → b.isRotation = true → a.kind.axis = b.kind.axis →
    a.qubits = b.qubits → ¬ ∀ g ∈ between, g.isRotation = true ∧ g.qubits ≠ a.qubits
  /-- No gate with a partner to cancel with. -/
  partner : ∀ i, findPartner defaultLookahead gates i = none
  /-- No wide gate right before a narrower one that it commutes with. -/
  order : ∀ before a b after, gates = before ++ a :: b :: after →
    ¬ (b.width < a.width ∧ a.commutes b = true)

theorem kind_eq_of_axis {k k' : GateKind} (hk : k.isRotation = true) (hk' : k'.isRotation = true)
    (h : k.axis = k'.axis) : k = k' := by
  cases k <;> simp [GateKind.isRotation, GateKind.angleKey] at hk <;>
    cases k' <;> simp [GateKind.isRotation, GateKind.angleKey, GateKind.axis] at hk' h ⊢

/-- **A settled list is in normal form**. -/
theorem Settled.normal {α : Type} [Scalar α] {gates : List (Gate α)} (h : Settled gates)
    (hgates : ∀ g ∈ gates, g.WellFormed) : Normal gates where
  alive g hg := by
    have halive := h.alive g hg
    unfold isDead at halive
    simp only [Bool.or_eq_false_iff, decide_eq_false_iff_not] at halive
    refine ⟨halive.1, fun angle hangle => ?_⟩
    simpa [hangle] using halive.2
  unmerged before a between b after hsplit ha hb haxis hq hbetween := by
    have hfusing := h.fusing
    rw [h.flushed] at hfusing
    have hkind : a.kind = b.kind := kind_eq_of_axis ha hb haxis
    have hmem : ∀ g, g ∈ a :: (between ++ b :: after) → g.WellFormed := fun g hg =>
      hgates g (hsplit ▸ List.mem_append_right before hg)
    obtain ⟨hawf, hrest⟩ := List.forall_mem_cons.1 hmem
    have hplace : place a = place b := by rw [place, place, hq]
    -- the rotations between are at other places
    have hother : ∀ g ∈ between, g.isRotation = true ∧ place g ≠ place b := fun g hg => by
      obtain ⟨hr, hne⟩ := hbetween g hg
      refine ⟨hr, fun hsame => hne ?_⟩
      rw [(hrest g (List.mem_append_left _ hg)).rotation_qubits hr, hawf.rotation_qubits ha]
      exact congrArg (fun q => [q]) (hsame.trans hplace.symm)
    -- the first of the two would still be held back when the second comes
    rw [hsplit] at hfusing
    obtain ⟨_, _, hsuffix, hlen⟩ := hfusing.exists_suffix (Nat.zero_add _).symm
    obtain ⟨_, _, htail, hlen', hrotation⟩ := hsuffix.exists_tail hlen
    obtain ⟨rfl, -⟩ := hrotation ha
    refine htail.kind_ne hlen' ?_ hb hother hkind
    rw [hplace, SortedMap.get?_insert_self]
  partner := h.flushed ▸ h.toCalm.partner
  order before a b after hsplit := h.toCalm.order before a b after (h.flushed.trans hsplit)

/-! ## Reaching a normal form -/

/-- Without rounding every gate agrees with itself. -/
instance : ReflBEq (Gate ℝ) where
  rfl {g} := by
    have hparameters : (g.parameters == g.parameters) = true :=
      beq_self_eq_true g.parameters.entries
    rw [beq_eq, beq_self_eq_true g.qubits, hparameters, beq_self_eq_true g.matrix,
      beq_self_eq_true g.fidelity]
    simp

/-- **Sweeping settles**: the sweeps end at a settled list, and end there after equally many sweeps
wherever more of them are allowed. -/
theorem exists_settled {gates : List (Gate ℝ)} (hgates : ∀ g ∈ gates, g.Built) :
    ∃ used final, Settled final ∧ Still final ∧ (∀ g ∈ final, g.Built) ∧
      ∀ n, used < n → ∀ counts : List PassCount, counts.map (·.pass) = standardPasses →
        ∃ counts', sweeps n gates counts = .ok (final, counts', used) := by
  -- the stages are well-founded, and every sweep that changes the list goes to a lower one
  induction hstage : stage gates using WellFoundedLT.induction generalizing gates with
  | ind _ ih =>
    subst hstage
    have hwell := wellFormed_of_built hgates
    obtain ⟨gates₁, counts₁, changed, hsweep, hshrinks⟩ :=
      describes_shrinks.sweep (standardPasses.map fun p => ⟨p, 0, 0⟩) hgates
    obtain ⟨fused, hswept⟩ := swept_of_sweep rfl hwell hsweep
    rcases hswept.below hwell with hlower | ⟨hsettled, rfl, hchanged⟩
    · -- a list below another is not the same, so the sweep reports a change
      have hmoved : changed = true := by
        cases changed with
        | true => rfl
        | false =>
          obtain ⟨-, rfl⟩ := hswept.settled hwell
          exact absurd hlower Below.irrefl
      subst hmoved
      obtain ⟨used, final, hsettled, hstill, hfinal, hrest⟩ :=
        ih _ hlower.stage_lt hshrinks.built rfl
      refine ⟨used + 1, final, hsettled, hstill, hfinal, fun n hn counts hcounts => ?_⟩
      obtain ⟨m, rfl⟩ : ∃ m, n = m + 1 := ⟨n - 1, by omega⟩
      obtain ⟨others, hfirst⟩ := sweep_congr hcounts hsweep
      have hothers : others.map (·.pass) = standardPasses :=
        (passes_of_sweep hfirst).1.trans hcounts
      obtain ⟨counts', hsweeps⟩ := hrest m (by omega) others hothers
      exact ⟨counts', sweeps_succ_eq_ok.2 (Or.inr ⟨gates₁, others, used, hfirst, hsweeps, rfl⟩)⟩
    · -- the sweep leaves the list as it is, and says so
      have hsame : changed = false := hchanged.2 (beq_self_eq_true _)
      subst hsame
      have hstill : Still gates₁ := fun _ hcounts => sweep_congr (hcounts.trans rfl) hsweep
      refine ⟨1, gates₁, hsettled, hstill, hgates, fun n hn counts hcounts => ?_⟩
      obtain ⟨m, rfl⟩ : ∃ m, n = m + 1 := ⟨n - 1, by omega⟩
      obtain ⟨counts', hfirst⟩ := hstill counts hcounts
      exact ⟨counts', sweeps_succ_eq_ok.2 (Or.inl ⟨hfirst, rfl⟩)⟩

/-- **The standard passes reach a normal form**: for every list of constructed gates there is a
number of sweeps after which a sweep changes nothing, and a list in normal form, such that every run
that may use more sweeps stops there with that list. -/
theorem run_reaches_normal_form {gates : List (Gate ℝ)} (hgates : ∀ g ∈ gates, g.Built) :
    ∃ used final, Normal final ∧ Still final ∧
      ∀ maxSweeps, used < maxSweeps → ∀ c : Circuit ℝ, c.gates = gates →
        ∃ o, run standardPasses maxSweeps c = .ok o ∧ o.iterations = used ∧
          o.circuit.gates = final := by
  obtain ⟨used, final, hsettled, hstill, hfinal, hsweeps⟩ := exists_settled hgates
  refine ⟨used, final, hsettled.normal (wellFormed_of_built hfinal), hstill,
    fun maxSweeps hmax c hc => ?_⟩
  obtain ⟨counts, hrun⟩ := hsweeps maxSweeps hmax (standardPasses.map fun p => ⟨p, 0, 0⟩) rfl
  exact ⟨_, run_eq_ok.2 ⟨final, counts, used, hc ▸ hrun, rfl⟩, rfl, rfl⟩

theorem run_reaches_normal_form_of_three :
    (∀ g ∈ [Gate.plain .x [0], Gate.plain .cnot [0, 1], (Gate.plain .h [2] : Gate ℝ)], g.Built) ∧
      ∃ used final, Normal final ∧ Still final ∧
        ∀ maxSweeps, used < maxSweeps → ∀ c : Circuit ℝ,
          c.gates = [Gate.plain .x [0], Gate.plain .cnot [0, 1], Gate.plain .h [2]] →
            ∃ o, run standardPasses maxSweeps c = .ok o ∧ o.iterations = used ∧
              o.circuit.gates = final := by
  have hbuilt : ∀ g ∈ [Gate.plain .x [0], Gate.plain .cnot [0, 1],
      (Gate.plain .h [2] : Gate ℝ)], g.Built := by
    simp only [List.forall_mem_cons, List.not_mem_nil, false_implies, implies_true, and_true]
    exact ⟨built_plain rfl rfl, built_plain rfl rfl, built_plain rfl rfl⟩
  exact ⟨hbuilt, run_reaches_normal_form hbuilt⟩

end QuantumWorkbench.Simplification
