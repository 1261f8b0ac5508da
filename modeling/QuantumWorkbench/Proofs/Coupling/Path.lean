import QuantumWorkbench.Coupling.Routing
import QuantumWorkbench.Proofs.Coupling.Search

/-!
# Where a path leads

The exchanges for two qubits are all steps but the last of a shortest path between them. So they
lead along stored edges from the first qubit to one beside the second.
-/

namespace QuantumWorkbench.CouplingGraph

variable {g : CouplingGraph} {start goal : Nat}

/-! ## Chains -/

/-- A chain of exchanges along stored edges leads from a qubit to one beside the goal. -/
inductive Leads (g : CouplingGraph) (goal : Nat) : Nat → List (Nat × Nat) → Prop where
  | beside {q} (h : g.connects q goal = true) : Leads g goal q []
  | step {q p chain} (h : g.connects q p = true) (rest : Leads g goal p chain) :
      Leads g goal q ((q, p) :: chain)

theorem Leads.connects_of_mem {a : Nat} {chain : List (Nat × Nat)} (h : g.Leads goal a chain) :
    ∀ e ∈ chain, g.connects e.1 e.2 = true := by
  induction h with
  | beside => exact fun e he => by cases he
  | step h _ ih => exact List.forall_mem_cons.2 ⟨h, ih⟩

theorem leads_of_path {rest : List Nat} (hne : rest ≠ [])
    (hedges : (start :: rest).IsChain fun a b => g.connects a b = true)
    (hgoal : (start :: rest).getLast? = some goal) :
    g.Leads goal start ((steps (start :: rest)).take ((start :: rest).length - 2)) := by
  induction rest generalizing start with
  | nil => exact absurd rfl hne
  | cons next rest ih =>
    obtain ⟨hedge, hedges⟩ := List.isChain_cons_cons.1 hedges
    rw [List.getLast?_cons_cons] at hgoal
    cases rest with
    | nil =>
      cases hgoal
      exact .beside hedge
    | cons after rest => exact .step hedge (ih (List.cons_ne_nil _ _) hedges hgoal)

/-- The exchanges for two qubits are the steps but the last of a shortest path, also where an edge
between the two leaves nothing to search. -/
theorem exists_isShortest_of_swapChain {α : Type} {a b : Nat} {chain : List (Nat × Nat)}
    (h : g.swapChain (α := α) a b = .ok chain) :
    ∃ path, g.IsShortest a b path ∧ chain = (steps path).take (path.length - 2) := by
  unfold swapChain at h
  split at h
  · next hconnects =>
    cases h
    obtain ⟨path, hpath⟩ :=
      Option.isSome_iff_exists.1 (shortestPath_isSome_iff.2 (.single hconnects))
    have hshortest := isShortest_of_shortestPath hpath
    -- the edge itself is a walk of two qubits
    have hle : path.length ≤ 2 := hshortest.least [a, b] ⟨List.isChain_pair.2 hconnects, rfl, rfl⟩
    exact ⟨path, hshortest, by rw [Nat.sub_eq_zero_of_le hle, List.take_zero]⟩
  · split at h
    · next path hpath =>
      cases h
      exact ⟨path, isShortest_of_shortestPath hpath, rfl⟩
    · cases h

/-- **The exchanges for two qubits** lead from the first to one beside the second; there are none
exactly where the two are connected. -/
theorem swapChain_eq_ok {α : Type} {a b : Nat} {chain : List (Nat × Nat)} (hab : a ≠ b)
    (h : g.swapChain (α := α) a b = .ok chain) :
    g.Leads b a chain ∧ (chain = [] ↔ g.connects a b = true) := by
  obtain ⟨path, hpath, hchain⟩ := exists_isShortest_of_swapChain h
  obtain ⟨hedges, hstart, hgoal⟩ := hpath.walk
  obtain ⟨rest, rfl⟩ := List.head?_eq_some_iff.1 hstart
  -- a path of one qubit would lead from it to itself
  have hne : rest ≠ [] := by
    rintro rfl
    exact hab (Option.some.inj hgoal)
  have hleads : g.Leads b a chain := hchain ▸ leads_of_path hne hedges hgoal
  refine ⟨hleads, fun hnil => ?_, fun hconnects => ?_⟩
  · rw [hnil] at hleads
    cases hleads with
    | beside hconnects => exact hconnects
  · rw [swapChain, if_pos hconnects] at h
    exact (Except.ok.inj h).symm

end QuantumWorkbench.CouplingGraph
