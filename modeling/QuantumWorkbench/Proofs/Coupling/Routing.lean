import Mathlib
import QuantumWorkbench.Coupling.Fitting
import QuantumWorkbench.Proofs.Coupling.Path
import QuantumWorkbench.Proofs.Gate.Fidelity

/-!
# What routing inserts

Routing puts a chain of exchanges before each gate: one that leads its first qubit beside its second
where it acts on two qubits, and the empty one otherwise. Fitting a circuit to a device writes out
the gates between these chains.
-/

namespace QuantumWorkbench

namespace CouplingGraph

variable {α : Type} [Scalar α]

/-! ## Chains before gates -/

/-- The exchange gate of a step of a chain. -/
def exchange (e : Nat × Nat) : Gate α := Gate.plain .swap [e.1, e.2]

/-- The two ends of a step lie in a register and differ. -/
structure Crosses (width : Nat) (e : Nat × Nat) : Prop where
  first : e.1 < width
  second : e.2 < width
  ne : e.1 ≠ e.2

/-- A chain goes before a gate on some qubits: it leads the first of two qubits beside the second,
and is empty for any other number of qubits. -/
def Bridges (g : CouplingGraph) (qubits : List Nat) (chain : List (Nat × Nat)) : Prop :=
  match qubits with
  | [a, b] => g.Leads b a chain ∧ (chain = [] ↔ g.connects a b = true)
  | _ => chain = []

theorem Bridges.connects_of_mem {g : CouplingGraph} {qubits : List Nat}
    {chain : List (Nat × Nat)} (h : g.Bridges qubits chain) :
    ∀ e ∈ chain, g.connects e.1 e.2 = true := by
  unfold Bridges at h
  split at h
  · exact h.1.connects_of_mem
  · subst h
    exact fun e he => by cases he

theorem swapGates_eq_ok {width : Nat} {chain : List (Nat × Nat)} {gates : List (Gate α)}
    (h : swapGates width chain = .ok gates) :
    gates = chain.map exchange ∧ ∀ e ∈ chain, Crosses width e := by
  unfold swapGates at h
  induction chain generalizing gates with
  | nil =>
    cases h
    exact ⟨rfl, fun e he => by cases he⟩
  | cons e chain ih =>
    rw [List.mapM_cons] at h
    obtain ⟨gate, hgate, h⟩ := bind_eq_ok.1 h
    obtain ⟨rest, hrest, h⟩ := bind_eq_ok.1 h
    cases h
    obtain ⟨rfl, hcrosses⟩ := ih hrest
    obtain ⟨a, b⟩ := e
    dsimp only at hgate
    split at hgate
    · cases hgate
    · next hinside =>
      -- the exchange is made by the constructor, which refuses equal ends
      cases hmake : (Gate.make .swap [a, b] .empty : Except (CircuitError α) (Gate α)) with
      | error e =>
        rw [hmake] at hgate
        cases hgate
      | ok made =>
        rw [hmake] at hgate
        cases hgate
        obtain ⟨hqubits, -, -, rfl⟩ := Gate.make_eq_ok.1 hmake
        obtain ⟨hnodup, -, -⟩ := Gate.checkQubits_eq_ok hqubits
        have hlt := List.find?_eq_none.1 hinside
        simp only [decide_eq_true_eq, Nat.not_le, List.forall_mem_cons] at hlt
        exact ⟨rfl, List.forall_mem_cons.2 ⟨⟨hlt.1, hlt.2.1, by simpa using hnodup⟩, hcrosses⟩⟩

theorem exchangesFor_eq_ok {g : CouplingGraph} {width : Nat} {gate : Gate α}
    {swaps : List (Gate α)} (hgate : gate.qubits.Nodup)
    (h : g.exchangesFor width gate = .ok swaps) :
    ∃ chain, swaps = chain.map exchange ∧ g.Bridges gate.qubits chain ∧
      ∀ e ∈ chain, Crosses width e := by
  unfold exchangesFor at h
  split at h
  · next a b hqubits =>
    obtain ⟨chain, hchain, hswaps⟩ := bind_eq_ok.1 h
    obtain ⟨rfl, hcrosses⟩ := swapGates_eq_ok hswaps
    rw [hqubits] at hgate ⊢
    exact ⟨chain, rfl, swapChain_eq_ok (by simpa using hgate) hchain, hcrosses⟩
  · next hother =>
    cases h
    refine ⟨[], rfl, ?_, fun e he => by cases he⟩
    unfold Bridges
    split
    · next a b hqubits => exact absurd hqubits (hother a b)
    · rfl

/-- A gate and the chain before it, in a register. -/
structure Routes (g : CouplingGraph) (width : Nat) (gate : Gate α) (chain : List (Nat × Nat)) :
    Prop where
  bridges : g.Bridges gate.qubits chain
  crosses : ∀ e ∈ chain, Crosses width e

/-- The gates of a list, each behind its chain of exchanges. -/
def interleave (gates : List (Gate α)) (chains : List (List (Nat × Nat))) : List (Gate α) :=
  (List.zipWith (fun gate chain => chain.map exchange ++ [gate]) gates chains).flatten

theorem interleave_cons (gate : Gate α) (chain : List (Nat × Nat)) (gates : List (Gate α))
    (chains : List (List (Nat × Nat))) : interleave (gate :: gates) (chain :: chains) =
      chain.map exchange ++ gate :: interleave gates chains := by
  simp [interleave]

/-- **Routing puts one chain before each gate**, and counts their steps. -/
theorem route_eq_ok {g : CouplingGraph} {width : Nat} {gates : List (Gate α)} {r : Routed α}
    (hgates : ∀ gate ∈ gates, gate.qubits.Nodup) (h : g.route width gates = .ok r) :
    ∃ chains, List.Forall₂ (g.Routes width) gates chains ∧
      r.gates = interleave gates chains ∧ r.swaps = chains.flatten.length := by
  induction gates generalizing r with
  | nil =>
    cases h
    exact ⟨[], .nil, rfl, rfl⟩
  | cons gate gates ih =>
    obtain ⟨hgate, hgates⟩ := List.forall_mem_cons.1 hgates
    obtain ⟨swaps, hswaps, h⟩ := bind_eq_ok.1 h
    obtain ⟨rest, hrest, h⟩ := bind_eq_ok.1 h
    cases h
    obtain ⟨chain, rfl, hbridges, hcrosses⟩ := exchangesFor_eq_ok hgate hswaps
    obtain ⟨chains, hroutes, hlist, hcount⟩ := ih hgates hrest
    refine ⟨chain :: chains, .cons ⟨hbridges, hcrosses⟩ hroutes, ?_, ?_⟩
    · rw [interleave_cons, hlist]
    · simp [hcount]

end CouplingGraph

namespace Device

open CouplingGraph

variable {α : Type} [Scalar α]

/-! ## Gates between chains -/

/-- The gates of a list as a device carries them out, each behind its chain of exchanges. -/
def carryOut (d : Device) (gates : List (Gate α)) (chains : List (List (Nat × Nat))) :
    List (Gate α) :=
  (List.zipWith (fun gate chain => chain.map exchange ++ d.expand gate) gates chains).flatten

/-- A gate that is carried out is an exchange of a chain, or belongs to a gate of the list. -/
theorem exists_of_mem_carryOut {d : Device} {g : CouplingGraph} {width : Nat}
    {gates : List (Gate α)} {chains : List (List (Nat × Nat))}
    (hroutes : List.Forall₂ (g.Routes width) gates chains) {x : Gate α}
    (hx : x ∈ d.carryOut gates chains) :
    (∃ e, x = exchange e ∧ Crosses width e ∧ g.connects e.1 e.2 = true) ∨
      ∃ gate ∈ gates, x ∈ d.expand gate := by
  induction hroutes with
  | nil => cases hx
  | @cons gate chain gates chains hroute _ ih =>
    rw [carryOut, List.zipWith_cons_cons, List.flatten_cons, List.mem_append, List.mem_append] at hx
    rcases hx with (hexchange | hexpand) | hrest
    · obtain ⟨e, he, rfl⟩ := List.mem_map.1 hexchange
      exact Or.inl ⟨e, rfl, hroute.crosses e he, hroute.bridges.connects_of_mem e he⟩
    · exact Or.inr ⟨gate, List.mem_cons_self, hexpand⟩
    · rcases ih hrest with hexchange | ⟨gate', hgate', hexpand⟩
      · exact Or.inl hexchange
      · exact Or.inr ⟨gate', List.mem_cons_of_mem _ hgate', hexpand⟩

theorem needsExpansion_exchange (d : Device) (e : Nat × Nat) :
    d.needsExpansion (exchange e : Gate α) = false := by
  simp [needsExpansion, exchange, Gate.plain]

theorem expandAll_exchanges (d : Device) (chain : List (Nat × Nat)) :
    d.expandAll (chain.map exchange : List (Gate α)) = chain.map exchange := by
  induction chain with
  | nil => rfl
  | cons e chain ih =>
    have hfirst : d.expand (exchange e : Gate α) = [exchange e] := by
      rw [expand, needsExpansion_exchange]
      rfl
    rw [List.map_cons, expandAll, List.flatMap_cons, hfirst]
    exact congrArg _ ih

/-- Exchanges are carried out as they are. -/
theorem expandAll_routed (d : Device) (gates : List (Gate α)) (chains : List (List (Nat × Nat))) :
    d.expandAll (interleave gates chains) = d.carryOut gates chains := by
  induction gates generalizing chains with
  | nil => rfl
  | cons gate gates ih =>
    cases chains with
    | nil => rfl
    | cons chain chains =>
      have hfirst := d.expandAll_exchanges (α := α) chain
      have hrest := ih chains
      unfold expandAll at hfirst hrest ⊢
      unfold interleave carryOut at hrest ⊢
      rw [List.zipWith_cons_cons, List.flatten_cons, List.flatMap_append, List.flatMap_append,
        hfirst, hrest, List.flatMap_singleton, List.zipWith_cons_cons, List.flatten_cons]

/-- **Fitting a circuit to a device with a graph** keeps its registers and puts a chain of exchanges
before each gate as the device carries it out. -/
theorem fit_eq_ok {d : Device} {g : CouplingGraph} (hd : d.coupling = some g) {c : Circuit α}
    (hc : ∀ gate ∈ c.gates, gate.qubits.Nodup) {f : Fitted α} (h : d.fit c = .ok f) :
    ∃ chains, List.Forall₂ (g.Routes c.width) c.gates chains ∧
      f.circuit = c.withGates (d.carryOut c.gates chains) ∧ f.swaps = chains.flatten.length := by
  obtain ⟨routed, hrouted, h⟩ := bind_eq_ok.1 h
  cases h
  rw [routeFor, hd] at hrouted
  obtain ⟨chains, hroutes, hlist, hcount⟩ := route_eq_ok hc hrouted
  refine ⟨chains, hroutes, ?_, hcount⟩
  rw [hlist, expandAll_routed]

end Device

end QuantumWorkbench
