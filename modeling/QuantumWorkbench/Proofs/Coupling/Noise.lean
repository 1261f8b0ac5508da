import Mathlib
import QuantumWorkbench.Proofs.Coupling.Figures
import QuantumWorkbench.Proofs.Simplification.Economy

/-!
# Fidelities of fitted circuits

Exchanges and the gates of an expansion are made with full fidelity, whatever the fidelity of the
gate that is written out. So over the real numbers a fitted circuit shows the fidelities of the
gates that were kept, and its fidelity rises by those of the gates that were written out.
-/

namespace QuantumWorkbench

open Gate

/-! ## Products of fidelities -/

namespace Circuit

variable {gates : List (Gate ℝ)}

theorem fidelityOf_cons (g : Gate ℝ) (gates : List (Gate ℝ)) :
    fidelityOf (g :: gates) = g.fidelity * fidelityOf gates := by
  rw [fidelityOf_eq_prod, fidelityOf_eq_prod, List.map_cons, List.prod_cons]

theorem fidelityOf_append (gates gates' : List (Gate ℝ)) :
    fidelityOf (gates ++ gates') = fidelityOf gates * fidelityOf gates' := by
  simp only [fidelityOf_eq_prod, List.map_append, List.prod_append]

theorem fidelityOf_eq_one (h : ∀ g ∈ gates, g.fidelity = 1) : fidelityOf gates = 1 := by
  rw [fidelityOf_eq_prod]
  refine List.prod_eq_one fun x hx => ?_
  obtain ⟨g, hg, rfl⟩ := List.mem_map.1 hx
  exact h g hg

theorem fidelityOf_pos_and_le_one (hgates : ∀ g ∈ gates, g.Built) :
    0 < fidelityOf gates ∧ fidelityOf gates ≤ 1 := by
  induction gates with
  | nil => exact ⟨one_pos, le_rfl⟩
  | cons g gates ih =>
    obtain ⟨hg, hgates⟩ := List.forall_mem_cons.1 hgates
    obtain ⟨hpos, hle⟩ := ih hgates
    rw [fidelityOf_cons]
    exact ⟨mul_pos hg.fidelity.1 hpos, mul_le_one₀ hg.fidelity.2 hpos.le hle⟩

/-- Constructed gates have full fidelity together exactly where each of them has it. -/
theorem fidelityOf_eq_one_iff (hgates : ∀ g ∈ gates, g.Built) :
    fidelityOf gates = 1 ↔ ∀ g ∈ gates, g.fidelity = 1 := by
  refine ⟨fun h => ?_, fidelityOf_eq_one⟩
  induction gates with
  | nil => exact List.forall_mem_nil _
  | cons g gates ih =>
    obtain ⟨hg, hgates⟩ := List.forall_mem_cons.1 hgates
    obtain ⟨hpos, hle⟩ := fidelityOf_pos_and_le_one hgates
    rw [fidelityOf_cons] at h
    -- neither factor is above one
    have hrest : fidelityOf gates = 1 :=
      le_antisymm hle (h ▸ mul_le_of_le_one_left hpos.le hg.fidelity.2)
    rw [hrest, mul_one] at h
    exact List.forall_mem_cons.2 ⟨h, ih hgates hrest⟩

end Circuit

open Circuit

/-- Exchanges have full fidelity. -/
theorem CouplingGraph.fidelityOf_interleave {width : ℕ} {gates : List (Gate ℝ)}
    {chains : List (List (ℕ × ℕ))} (h : Within width gates chains) :
    fidelityOf (interleave gates chains) = fidelityOf gates := by
  induction h with
  | nil => rfl
  | @cons gate chain gates chains _ _ ih =>
    have hchain : fidelityOf (chain.map exchange : List (Gate ℝ)) = 1 :=
      fidelityOf_eq_one fun g hg => by
        obtain ⟨e, -, rfl⟩ := List.mem_map.1 hg
        rfl
    rw [interleave_cons, fidelityOf_append, hchain, one_mul, fidelityOf_cons, fidelityOf_cons, ih]

namespace Device

open CouplingGraph

variable (d : Device)

/-- The gates of a list that a device writes out. -/
def writtenOut (gates : List (Gate ℝ)) : List (Gate ℝ) := gates.filter fun g => d.needsExpansion g

variable {d}

/-- An expansion has full fidelity. -/
theorem fidelityOf_expand {g : Gate ℝ} (hg : g.WellFormed) (hneeds : d.needsExpansion g = true) :
    fidelityOf (d.expand g) = 1 := by
  refine fidelityOf_eq_one ?_
  rcases expansion_cases hg hneeds with ⟨a, b, c, -, -, hlist⟩ | ⟨a, b, -, -, hlist⟩
  · rw [hlist]
    simp [toffoliNetwork, plain]
  · rw [hlist]
    simp [plain]

/-- **Writing gates out** loses exactly the fidelities of the gates that are written out. -/
theorem fidelityOf_expandAll {gates : List (Gate ℝ)} (hgates : ∀ g ∈ gates, g.WellFormed) :
    fidelityOf (d.expandAll gates) * fidelityOf (d.writtenOut gates) = fidelityOf gates := by
  induction gates with
  | nil => exact mul_one _
  | cons g gates ih =>
    obtain ⟨hg, hgates⟩ := List.forall_mem_cons.1 hgates
    rw [expandAll_cons, fidelityOf_append, fidelityOf_cons, ← ih hgates]
    cases hneeds : d.needsExpansion g with
    | false =>
      have hout : d.writtenOut (g :: gates) = d.writtenOut gates :=
        List.filter_cons_of_neg (by simp [hneeds])
      rw [hout, expand_eq_self hneeds, fidelityOf_cons, fidelityOf_eq_one (List.forall_mem_nil _)]
      ring
    | true =>
      have hout : d.writtenOut (g :: gates) = g :: d.writtenOut gates :=
        List.filter_cons_of_pos hneeds
      rw [hout, fidelityOf_expand hg hneeds, fidelityOf_cons]
      ring

/-- **What fitting does to the fidelity**, for every circuit of constructed gates and every device
that it is fitted to: the fidelities of the gates that are written out are lost. So the fidelity
never falls, and stays exactly where all these gates have full fidelity. Without a graph every
circuit is fitted. -/
theorem fit_fidelity (d : Device) (width bits : ℕ) {ops : List (Operation ℝ)}
    (hgates : ∀ g ∈ (Operation.run ops (blank width bits)).gates, g.Built) :
    let c := Operation.run ops (blank width bits)
    (∀ f, d.fit c = .ok f →
      f.circuit.fidelity * fidelityOf (d.writtenOut c.gates) = c.fidelity ∧
      c.fidelity ≤ f.circuit.fidelity ∧
      (f.circuit.fidelity = c.fidelity ↔
        ∀ g ∈ c.gates, d.needsExpansion g = true → g.fidelity = 1)) ∧
    (d.coupling = none → ∃ f, d.fit c = .ok f) := by
  intro c
  have hbooks : c.Bookkept := bookkept_run width bits ops
  refine ⟨fun f hfit => ?_, fun hd => ?_⟩
  · obtain ⟨r, chains, hwithin, hlist, -, hwell, rfl⟩ := exists_routed hgates hfit
    have hout : d.writtenOut r.gates = d.writtenOut c.gates := by
      rw [hlist]
      exact filter_interleave hwithin d.needsExpansion_exchange
    have hbefore : fidelityOf r.gates = c.fidelity := by
      rw [hlist, fidelityOf_interleave hwithin, hbooks.fidelity_eq_prod, fidelityOf_eq_prod]
    -- what is lost is lost by writing out alone
    have hlost : fidelityOf (d.expandAll r.gates) * fidelityOf (d.writtenOut c.gates) =
        c.fidelity := by rw [← hout, fidelityOf_expandAll hwell, hbefore]
    have hbuilt : ∀ g ∈ d.writtenOut c.gates, g.Built :=
      fun g hg => hgates g (List.mem_of_mem_filter hg)
    obtain ⟨hpos, hle⟩ := fidelityOf_pos_and_le_one hbuilt
    have hpositive : 0 < fidelityOf (d.expandAll r.gates) := by
      rw [← mul_pos_iff_of_pos_right hpos, hlost, hbooks.fidelity_eq_prod, ← fidelityOf_eq_prod]
      exact (fidelityOf_pos_and_le_one hgates).1
    refine ⟨hlost, ?_, ?_⟩
    · exact hlost ▸ mul_le_of_le_one_right hpositive.le hle
    · show fidelityOf (d.expandAll r.gates) = c.fidelity ↔ _
      rw [← hlost, eq_comm, mul_eq_left₀ hpositive.ne', fidelityOf_eq_one_iff hbuilt]
      simp only [writtenOut, List.mem_filter, and_imp]
  · obtain ⟨f, hfit, -⟩ := fit_of_uncoupled hd c
    exact ⟨f, hfit⟩

/-- A gate that is kept and one that is written out, both noisy. -/
noncomputable def noisy : List (Operation ℝ) :=
  [.append (.given { plain .h [0] with fidelity := 1 / 2 }),
    .append (.given { plain .cz [0, 1] with fidelity := 1 / 2 })]

theorem built_noisy : ∀ g ∈ (Operation.run noisy (blank 2 2)).gates, g.Built := by
  have hbuilt {kind : GateKind} {qubits : List ℕ} {x : ℝ}
      (hqubits : checkQubits (α := ℝ) kind qubits = .ok ())
      (hstorage : kind.hasStorage qubits.length = true) (hx : 0 < x ∧ x ≤ 1) :
      ({ plain kind qubits with fidelity := x } : Gate ℝ).Built :=
    .withFidelity (built_plain hqubits hstorage)
      (withFidelity_eq_ok.2 ⟨checkFidelity_real.2 hx, rfl⟩)
  show ∀ g ∈ ([_, _] : List (Gate ℝ)), g.Built
  exact List.forall_mem_cons.2 ⟨hbuilt rfl rfl (by norm_num), List.forall_mem_singleton.2
    (hbuilt rfl rfl (by norm_num))⟩

theorem fidelity_noisy : (Operation.run noisy (blank 2 2)).fidelity = 1 / 4 := by
  show (1 : ℝ) * (1 / 2) * (1 / 2) = 1 / 4
  norm_num

theorem fidelityOf_writtenOut_noisy :
    fidelityOf ((ofCoupling none).writtenOut (Operation.run noisy (blank 2 2)).gates) = 1 / 2 := by
  have hnative : (ofCoupling none).isNative .cz = false := by cbv
  have hout : (ofCoupling none).writtenOut (Operation.run noisy (blank 2 2)).gates =
      [{ plain .cz [0, 1] with fidelity := 1 / 2 }] := by
    show List.filter _ [_, _] = _
    simp [needsExpansion, plain, hnative]
  rw [hout]
  exact one_mul _

theorem fit_fidelity_noisy : (∀ g ∈ (Operation.run noisy (blank 2 2)).gates, g.Built) ∧
    ∃ f, (ofCoupling none).fit (Operation.run noisy (blank 2 2)) = .ok f ∧
      f.circuit.fidelity * (1 / 2) = 1 / 4 := by
  obtain ⟨hlost, hfits⟩ := fit_fidelity (ofCoupling none) 2 2 built_noisy
  obtain ⟨f, hfit⟩ := hfits rfl
  have hproduct := (hlost f hfit).1
  rw [fidelityOf_writtenOut_noisy, fidelity_noisy] at hproduct
  exact ⟨built_noisy, f, hfit, hproduct⟩

/-- The fitted circuit shows a higher fidelity than the circuit. -/
theorem fidelity_rises_noisy :
    ∃ f, (ofCoupling none).fit (Operation.run noisy (blank 2 2)) = .ok f ∧
      (Operation.run noisy (blank 2 2)).fidelity = 1 / 4 ∧ f.circuit.fidelity = 1 / 2 := by
  obtain ⟨f, hfit, hcircuit⟩ := fit_of_uncoupled (show (ofCoupling none).coupling = none from rfl)
    (Operation.run noisy (blank 2 2))
  refine ⟨f, hfit, fidelity_noisy, ?_⟩
  have hlost := fidelityOf_expandAll (d := ofCoupling none)
    fun g hg => (built_noisy g hg).wellFormed
  rw [fidelityOf_writtenOut_noisy, fidelityOf_eq_prod (Operation.run noisy (blank 2 2)).gates,
    ← (bookkept_run 2 2 noisy).fidelity_eq_prod, fidelity_noisy] at hlost
  rw [hcircuit]
  show fidelityOf _ = _
  linarith

end Device

end QuantumWorkbench
