import Mathlib
import QuantumWorkbench.Proofs.Coupling.Fitting

/-!
# What fitting leaves, by its figures

Routing adds exchanges and no other gates, and writing out replaces a doubly controlled negation by
fifteen gates and a controlled sign by three. So the figures of a fitting tell the number of gates
that it leaves. None of these has to be written out again, and they lie in the register if the gates
of the circuit do.
-/

namespace QuantumWorkbench

open Gate

variable {α : Type} [Scalar α]

/-! ## Routed lists -/

namespace CouplingGraph

/-- The chains before the gates of a list lie in a register. -/
def Within (width : ℕ) (gates : List (Gate α)) (chains : List (List (ℕ × ℕ))) : Prop :=
  List.Forall₂ (fun _ chain => ∀ e ∈ chain, Crosses width e) gates chains

variable {width : ℕ} {gates : List (Gate α)} {chains : List (List (ℕ × ℕ))}

/-- What holds of no exchange picks the same gates as before. -/
theorem filter_interleave (h : Within width gates chains) {p : Gate α → Bool}
    (hp : ∀ e, p (exchange e) = false) : (interleave gates chains).filter p = gates.filter p := by
  induction h with
  | nil => rfl
  | @cons gate chain gates chains _ _ ih =>
    have hchain : (chain.map exchange).filter p = [] := List.filter_eq_nil_iff.2 fun g hg => by
      obtain ⟨e, -, rfl⟩ := List.mem_map.1 hg
      rw [hp]
      exact Bool.false_ne_true
    rw [interleave_cons, List.filter_append, hchain, List.nil_append, List.filter_cons,
      List.filter_cons, ih]

theorem mem_interleave (h : Within width gates chains) {x : Gate α} :
    x ∈ interleave gates chains ↔ x ∈ gates ∨ ∃ e ∈ chains.flatten, x = exchange e := by
  induction h with
  | nil => simp [interleave]
  | cons _ _ ih =>
    simp only [interleave_cons, List.mem_append, List.mem_map, List.mem_cons, ih,
      List.flatten_cons]
    grind

omit [Scalar α] in
theorem Within.crosses (h : Within width gates chains) : ∀ e ∈ chains.flatten, Crosses width e := by
  induction h with
  | nil => exact List.forall_mem_nil _
  | cons hchain _ ih => exact List.forall_mem_append.2 ⟨hchain, ih⟩

theorem wellFormed_exchange {e : ℕ × ℕ} (he : e.1 ≠ e.2) : (exchange e : Gate α).WellFormed where
  nodup := by simpa [exchange, plain] using he
  nonempty := List.cons_ne_nil _ _
  arity n hn := Option.some.inj hn
  custom m hm := by cases hm
  shape m hm := by cases hm
  fidelityTaken := rfl

theorem wellFormed_interleave (h : Within width gates chains)
    (hgates : ∀ g ∈ gates, g.WellFormed) : ∀ g ∈ interleave gates chains, g.WellFormed := by
  intro g hg
  rcases (mem_interleave h).1 hg with hg | ⟨e, he, rfl⟩
  · exact hgates g hg
  · exact wellFormed_exchange (h.crosses e he).ne

end CouplingGraph

namespace Device

open CouplingGraph

variable {d : Device}

/-- A device with a graph puts exchanges before the gates, and one without leaves them alone. -/
theorem routeFor_eq_ok {width : ℕ} {gates : List (Gate α)} {r : Routed α}
    (hgates : ∀ g ∈ gates, g.qubits.Nodup) (h : d.routeFor width gates = .ok r) :
    ∃ chains, Within width gates chains ∧ r.gates = interleave gates chains ∧
      r.swaps = chains.flatten.length := by
  unfold routeFor at h
  split at h
  · obtain ⟨chains, hroutes, hlist, hswaps⟩ := route_eq_ok hgates h
    exact ⟨chains, hroutes.imp fun _ _ hroute => hroute.crosses, hlist, hswaps⟩
  · cases h
    clear hgates
    induction gates with
    | nil => exact ⟨[], .nil, rfl, rfl⟩
    | cons gate gates ih =>
      obtain ⟨chains, hwithin, hlist, hswaps⟩ := ih
      refine ⟨[] :: chains, .cons (List.forall_mem_nil _) hwithin, ?_, hswaps⟩
      rw [interleave_cons, ← hlist]
      rfl

/-! ## Gates to write out -/

/-- A device carries out a kind of the catalog if one of its names stands for it. -/
theorem isNative_iff {kind : GateKind} (hkind : GateKind.ofName kind.name = kind) :
    d.isNative kind = true ↔ ∃ name ∈ d.native.keys, GateKind.ofName name = kind := by
  have hcontains : d.native.contains kind.name = true ↔ kind.name ∈ d.native.keys := by
    rw [SortedMap.contains, SortedMap.mem_keys_iff, Option.isSome_iff_exists]
  rw [isNative, Bool.or_eq_true, hcontains, List.any_eq_true]
  simp only [decide_eq_true_eq]
  exact or_iff_right_of_imp fun h => ⟨_, h, hkind⟩

omit [Scalar α] in
theorem needsExpansion_iff {g : Gate α} :
    d.needsExpansion g = true ↔ (g.kind = .toffoli ∨ g.kind = .cz) ∧
      ¬ ∃ name ∈ d.native.keys, GateKind.ofName name = g.kind := by
  have hname (hkind : g.kind = .toffoli ∨ g.kind = .cz) : GateKind.ofName g.kind.name = g.kind := by
    rcases hkind with hkind | hkind
    · rw [hkind]
      cbv
    · rw [hkind]
      cbv
  rw [needsExpansion, Bool.and_eq_true, and_comm]
  simp only [Bool.or_eq_true, decide_eq_true_eq, Bool.not_eq_true']
  refine and_congr_right fun hkind => ?_
  rw [← isNative_iff (hname hkind), Bool.not_eq_true]

section

omit [Scalar α]

variable {g : Gate α} {gates : List (Gate α)} {kind : GateKind}

end

/-- Where a gate is written out, it is written out on three or on two qubits. -/
theorem expansion_cases {g : Gate α} (hg : g.WellFormed) (hneeds : d.needsExpansion g = true) :
    (∃ a b c, g.kind = .toffoli ∧ g.qubits = [a, b, c] ∧ d.expand g = toffoliNetwork a b c) ∨
      ∃ a b, g.kind = .cz ∧ g.qubits = [a, b] ∧
        d.expand g = [plain .h [b], plain .cnot [a, b], plain .h [b]] := by
  rw [expand, if_pos hneeds]
  have hkind := (needsExpansion_iff.1 hneeds).1
  cases hg.expands with
  | toffoli hk hq hlist => exact Or.inl ⟨_, _, _, hk, hq, hlist⟩
  | cz hk hq hlist => exact Or.inr ⟨_, _, hk, hq, hlist⟩
  -- a device writes no exchange out, controlled or not
  | swap hk | fredkin hk => simp [hk] at hkind
  | self hk => exact (hkind.elim hk.1 hk.2.1).elim

theorem expand_eq_self {g : Gate α} (hneeds : d.needsExpansion g = false) : d.expand g = [g] := by
  rw [expand, hneeds]
  rfl

theorem exists_routeFor {c : Circuit α} {f : Fitted α} (h : d.fit c = .ok f) :
    ∃ r, d.routeFor c.width c.gates = .ok r ∧
      f = ⟨c.withGates (d.expandAll r.gates), c.gates.length, (d.expandAll r.gates).length,
        r.routed, r.swaps, r.gates.countP fun g => d.needsExpansion g⟩ := by
  obtain ⟨r, hr, h⟩ := bind_eq_ok.1 h
  refine ⟨r, hr, (Except.ok.inj h).symm.trans ?_⟩
  rw [List.countP_eq_length_filter]

/-- A fitted circuit consists of its gates behind chains of exchanges, written out. -/
theorem exists_routed {c : Circuit α} (hc : ∀ g ∈ c.gates, g.Built) {f : Fitted α}
    (h : d.fit c = .ok f) :
    ∃ (r : Routed α) (chains : List (List (ℕ × ℕ))), Within c.width c.gates chains ∧
      r.gates = interleave c.gates chains ∧ r.swaps = chains.flatten.length ∧
      (∀ g ∈ r.gates, g.WellFormed) ∧
      f = ⟨c.withGates (d.expandAll r.gates), c.gates.length, (d.expandAll r.gates).length,
        r.routed, r.swaps, r.gates.countP fun g => d.needsExpansion g⟩ := by
  have hwell : ∀ g ∈ c.gates, g.WellFormed := fun g hg => (hc g hg).wellFormed
  obtain ⟨r, hr, hf⟩ := exists_routeFor h
  obtain ⟨chains, hwithin, hlist, hswaps⟩ := routeFor_eq_ok (fun g hg => (hwell g hg).nodup) hr
  exact ⟨r, chains, hwithin, hlist, hswaps, hlist ▸ wellFormed_interleave hwithin hwell, hf⟩

end Device

end QuantumWorkbench
