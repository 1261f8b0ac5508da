import Mathlib
import QuantumWorkbench.Proofs.Coupling.Routing
import QuantumWorkbench.Proofs.Coupling.Search

/-!
# Which exchanges routing inserts

The exchanges before a gate on two qubits walk its first qubit along a shortest path until one step
is left. Routing fails for the first gate whose qubits no path joins, or whose walk leaves the
register, and for no other reason: the steps of a shortest path always have two different ends.
-/

namespace QuantumWorkbench

namespace CouplingGraph

variable {g : CouplingGraph} {a b : ℕ}

/-! ## Steps of a path -/

theorem length_steps (path : List ℕ) : (steps path).length = path.length - 1 := by
  induction path with
  | nil => rfl
  | cons q rest ih =>
    cases rest with
    | nil => rfl
    | cons p rest => simp [steps, ih]

/-- Leaving out the last step of a path is leaving out its last qubit. -/
theorem take_steps_append (path : List ℕ) (q : ℕ) :
    (steps (path ++ [q])).take (path.length - 1) = steps path := by
  induction path with
  | nil => rfl
  | cons p rest ih =>
    cases rest with
    | nil => rfl
    | cons p' rest => exact congrArg ((p, p') :: ·) ih

theorem forall_mem_steps {R : ℕ → ℕ → Prop} {path : List ℕ} (h : path.IsChain R) :
    ∀ e ∈ steps path, R e.1 e.2 := by
  induction path with
  | nil => exact fun e he => by cases he
  | cons p rest ih =>
    cases rest with
    | nil => exact fun e he => by cases he
    | cons p' rest =>
      obtain ⟨hstep, hrest⟩ := List.isChain_cons_cons.1 h
      exact List.forall_mem_cons.2 ⟨hstep, ih hrest⟩

/-! ## Distances -/

/-- The number of steps of the shortest walks from one qubit to another. -/
def IsDistance (g : CouplingGraph) (start goal n : ℕ) : Prop :=
  IsLeast {m | ∃ path, g.IsWalk start goal path ∧ path.length = m + 1} n

theorem IsShortest.isDistance {path : List ℕ} {n : ℕ} (h : g.IsShortest a b path)
    (hn : path.length = n + 1) : g.IsDistance a b n := by
  refine ⟨⟨path, h.walk, hn⟩, ?_⟩
  rintro m ⟨other, hother, hm⟩
  have hle := h.least other hother
  omega

/-! ## The chain before a gate -/

/-- A chain of exchanges walks along stored edges, past no qubit twice, from the first qubit to one
with an edge to the second; it has one step less than the distance between them. -/
structure Escorts (g : CouplingGraph) (a b : ℕ) (chain : List (ℕ × ℕ)) : Prop where
  walk : ∃ path last, chain = steps path ∧ g.IsWalk a last path ∧ path.Nodup ∧
    g.connects last b = true
  distance : g.IsDistance a b (chain.length + 1)

/-- All steps of a shortest walk but the last. -/
theorem IsShortest.escorts {path : List ℕ} (hab : a ≠ b) (h : g.IsShortest a b path) :
    g.Escorts a b ((steps path).take (path.length - 2)) := by
  obtain ⟨walk, rfl⟩ := List.getLast?_eq_some_iff.1 h.walk.target
  obtain ⟨hedges, -, hlast⟩ := List.isChain_append.1 h.walk.edges
  have horigin := h.walk.origin
  -- the walk without the goal starts at the first qubit all the same
  cases walk with
  | nil =>
    cases horigin
    exact absurd rfl hab
  | cons q rest =>
    obtain rfl : q = a := Option.some.inj horigin
    have hchain : (steps (q :: rest ++ [b])).take ((q :: rest ++ [b]).length - 2) =
        steps (q :: rest) := by
      rw [← take_steps_append (q :: rest) b, List.length_append]
      rfl
    rw [hchain]
    obtain ⟨last, hend⟩ : ∃ last, (q :: rest).getLast? = some last :=
      ⟨_, List.getLast?_cons⟩
    refine ⟨⟨q :: rest, last, rfl, ⟨hedges, rfl, hend⟩, ?_, hlast last hend b rfl⟩, ?_⟩
    · exact (List.nodup_append.1 h.nodup).1
    · refine h.isDistance ?_
      rw [length_steps, List.length_append]
      rfl

section Chain

variable {α : Type} {chain : List (ℕ × ℕ)}

theorem escorts_of_swapChain (hab : a ≠ b) (h : g.swapChain (α := α) a b = .ok chain) :
    g.Escorts a b chain := by
  obtain ⟨path, hpath, rfl⟩ := exists_isShortest_of_swapChain h
  exact hpath.escorts hab

/-- The steps of a chain have two different ends. -/
theorem ne_of_mem_swapChain (h : g.swapChain (α := α) a b = .ok chain) :
    ∀ e ∈ chain, e.1 ≠ e.2 := by
  obtain ⟨path, hpath, rfl⟩ := exists_isShortest_of_swapChain h
  exact fun e he => forall_mem_steps hpath.nodup.isChain e (List.mem_of_mem_take he)

/-- There is no chain exactly where no walk leads to the second qubit. -/
theorem swapChain_eq_error_iff {e : RoutingError α} :
    g.swapChain a b = .error e ↔
      e = .noPath a b ∧ ¬ Relation.ReflTransGen (fun p q => g.connects p q = true) a b := by
  rw [← shortestPath_isSome_iff]
  unfold swapChain
  split
  · next hconnects =>
    have hreached := shortestPath_isSome_iff.2
      (Relation.ReflTransGen.single (r := fun p q => g.connects p q = true) hconnects)
    exact iff_of_false (by simp) fun h => h.2 hreached
  · split
    · next path hpath => exact iff_of_false (by simp) fun h => h.2 (by rw [hpath]; rfl)
    · next hnone =>
      rw [hnone]
      exact ⟨fun h => ⟨(Except.error.inj h).symm, by simp⟩, fun h => by rw [h.1]⟩

end Chain

/-! ## Exchange gates -/

section Gates

variable {α : Type} [Scalar α] {width : ℕ}

/-- The qubits that a chain visits, step by step. -/
def visited (chain : List (ℕ × ℕ)) : List ℕ := chain.flatMap fun e => [e.1, e.2]

/-- An exchange of two different qubits can be made. -/
theorem make_exchange [Gate.FullFidelity α] (hab : a ≠ b) :
    Gate.make .swap [a, b] .empty = .ok (exchange (a, b) : Gate α) := by
  have hqubits : Gate.checkQubits (α := α) .swap [a, b] = .ok () := by
    simp [Gate.checkQubits, GateKind.arity, Qubit.firstRepeated, hab]
  exact Gate.make_plain hqubits rfl

/-- **The exchange gates of a chain**, unless it visits a qubit outside the register: then the first
of these is reported. -/
theorem swapGates_eq [Gate.FullFidelity α] (width : ℕ)
    {chain : List (ℕ × ℕ)} (hchain : ∀ e ∈ chain, e.1 ≠ e.2) :
    (swapGates width chain : Except (RoutingError α) (List (Gate α))) =
      match (visited chain).find? fun q => width ≤ q with
      | some q => .error (.circuit (.qubitOutOfRange q width))
      | none => .ok (chain.map exchange) := by
  induction chain with
  | nil => rfl
  | cons e chain ih =>
    obtain ⟨hne, hchain⟩ := List.forall_mem_cons.1 hchain
    have hvisited : visited (e :: chain) = [e.1, e.2] ++ visited chain := rfl
    have hrest := ih hchain
    unfold swapGates at hrest ⊢
    rw [List.mapM_cons, hvisited, List.find?_append]
    dsimp only
    cases [e.1, e.2].find? fun q => width ≤ q with
    | some q => rfl
    | none =>
      rw [make_exchange hne, hrest, Option.none_or]
      cases (visited chain).find? fun q => width ≤ q <;> rfl

theorem forall_lt_of_visited {chain : List (ℕ × ℕ)}
    (h : (visited chain).find? (fun q => width ≤ q) = none) :
    ∀ e ∈ chain, e.1 < width ∧ e.2 < width := by
  have hall : ∀ q ∈ visited chain, q < width := by simpa using h
  exact fun e he => ⟨hall _ (List.mem_flatMap.2 ⟨e, he, List.mem_cons_self⟩),
    hall _ (List.mem_flatMap.2 ⟨e, he, List.mem_cons_of_mem _ List.mem_cons_self⟩)⟩

/-! ## Single gates -/

/-- What routing puts before a gate: on two qubits the chosen chain, which lies in the register, and
nothing on any other number of qubits. -/
inductive Accompanies (g : CouplingGraph) (width : ℕ) (gate : Gate α) : List (ℕ × ℕ) → Prop where
  | pair {p q : ℕ} {chain : List (ℕ × ℕ)} (hqubits : gate.qubits = [p, q])
      (hchosen : g.swapChain (α := α) p q = .ok chain) (hescorts : g.Escorts p q chain)
      (hinside : ∀ e ∈ chain, e.1 < width ∧ e.2 < width) : Accompanies g width gate chain
  | other (hqubits : gate.qubits.length ≠ 2) : Accompanies g width gate []

/-- Why a gate cannot be routed: no walk joins its two qubits, or the chosen chain visits a qubit
outside the register. -/
inductive Hinders (g : CouplingGraph) (width : ℕ) (gate : Gate α) : RoutingError α → Prop where
  | apart {p q : ℕ} (hqubits : gate.qubits = [p, q])
      (hapart : ¬ Relation.ReflTransGen (fun x y => g.connects x y = true) p q) :
      Hinders g width gate (.noPath p q)
  | outside {p q x : ℕ} {chain : List (ℕ × ℕ)} (hqubits : gate.qubits = [p, q])
      (hchosen : g.swapChain (α := α) p q = .ok chain) (hescorts : g.Escorts p q chain)
      (hfirst : (visited chain).find? (fun y => width ≤ y) = some x) :
      Hinders g width gate (.circuit (.qubitOutOfRange x width))

variable {gate : Gate α}

theorem exchangesFor_pair (hqubits : gate.qubits = [a, b]) :
    g.exchangesFor width gate = g.swapChain a b >>= swapGates width := by
  rw [exchangesFor, hqubits]

theorem exchangesFor_other (hqubits : gate.qubits.length ≠ 2) :
    g.exchangesFor width gate = .ok [] := by
  unfold exchangesFor
  split
  · next hpair => exact absurd (congrArg List.length hpair) hqubits
  · rfl

/-- **One gate** is routed behind its chain, or hindered for the reason that is reported. -/
theorem exchangesFor_cases [Gate.FullFidelity α] (g : CouplingGraph)
    (width : ℕ) (hgate : gate.qubits.Nodup) :
    (∃ chain, g.exchangesFor width gate = .ok (chain.map exchange) ∧
      Accompanies g width gate chain) ∨
      ∃ e, g.exchangesFor width gate = .error e ∧ Hinders g width gate e := by
  by_cases hlength : gate.qubits.length = 2
  · obtain ⟨p, q, hqubits⟩ := List.length_eq_two.1 hlength
    have hpq : p ≠ q := by simpa [hqubits] using hgate
    rw [exchangesFor_pair hqubits]
    cases hchosen : g.swapChain (α := α) p q with
    | error e =>
      obtain ⟨rfl, hapart⟩ := swapChain_eq_error_iff.1 hchosen
      exact Or.inr ⟨_, rfl, .apart hqubits hapart⟩
    | ok chain =>
      have hescorts := escorts_of_swapChain hpq hchosen
      have hgates := swapGates_eq (α := α) width (ne_of_mem_swapChain hchosen)
      -- a chain is turned down at its first qubit outside the register, if it has one
      cases hfirst : (visited chain).find? fun y => width ≤ y with
      | some x =>
        rw [hfirst] at hgates
        exact Or.inr ⟨_, hgates, .outside hqubits hchosen hescorts hfirst⟩
      | none =>
        rw [hfirst] at hgates
        exact Or.inl ⟨chain, hgates, .pair hqubits hchosen hescorts (forall_lt_of_visited hfirst)⟩
  · exact Or.inl ⟨[], exchangesFor_other hlength, .other hlength⟩

/-- A reason that hinders a gate is the one that is reported. -/
theorem exchangesFor_of_hinders [Gate.FullFidelity α] {e : RoutingError α}
    (h : Hinders g width gate e) : g.exchangesFor width gate = .error e := by
  cases h with
  | apart hqubits hapart =>
    rw [exchangesFor_pair hqubits, swapChain_eq_error_iff.2 ⟨rfl, hapart⟩]
    rfl
  | outside hqubits hchosen _ hfirst =>
    rw [exchangesFor_pair hqubits, hchosen]
    change swapGates width _ = _
    rw [swapGates_eq width (ne_of_mem_swapChain hchosen), hfirst]

theorem accompanies_of_exchangesFor [Gate.FullFidelity α]
    (hgate : gate.qubits.Nodup) {swaps : List (Gate α)}
    (h : g.exchangesFor width gate = .ok swaps) :
    ∃ chain, swaps = chain.map exchange ∧ Accompanies g width gate chain := by
  rcases exchangesFor_cases g width hgate with ⟨chain, hchain, hbehind⟩ | ⟨e, he, -⟩
  · exact ⟨chain, Except.ok.inj (h.symm.trans hchain), hbehind⟩
  · cases h.symm.trans he

theorem exchangesFor_eq_error_iff [Gate.FullFidelity α]
    (hgate : gate.qubits.Nodup) {e : RoutingError α} :
    g.exchangesFor width gate = .error e ↔ Hinders g width gate e := by
  refine ⟨fun h => ?_, exchangesFor_of_hinders⟩
  rcases exchangesFor_cases g width hgate with ⟨chain, hchain, -⟩ | ⟨e', he', hhinders⟩
  · cases h.symm.trans hchain
  · cases h.symm.trans he'
    exact hhinders

/-! ## Lists of gates -/

/-- A routed list with the exchanges of the chains left out: before each gate as many gates as its
chain has steps. -/
def withoutChains : List (List (ℕ × ℕ)) → List (Gate α) → List (Gate α)
  | [], gates => gates
  | chain :: chains, gates =>
    match gates.drop chain.length with
    | [] => []
    | gate :: rest => gate :: withoutChains chains rest

theorem withoutChains_interleave {gates : List (Gate α)} {chains : List (List (ℕ × ℕ))}
    (h : List.Forall₂ (Accompanies g width) gates chains) :
    withoutChains chains (interleave gates chains) = gates := by
  induction h with
  | nil => rfl
  | @cons gate chain gates chains _ _ ih =>
    have hdrop : (interleave (gate :: gates) (chain :: chains)).drop chain.length =
        gate :: interleave gates chains := by
      rw [interleave_cons, List.drop_left' (List.length_map _)]
    rw [withoutChains, hdrop]
    exact congrArg _ ih

/-- **A list that is routed** holds every gate behind its chain, and the figures count the chains
with steps and their steps. -/
theorem route_counts [Gate.FullFidelity α] {gates : List (Gate α)}
    (hgates : ∀ gate ∈ gates, gate.qubits.Nodup) {r : Routed α} (h : g.route width gates = .ok r) :
    ∃ chains, List.Forall₂ (Accompanies g width) gates chains ∧ r.gates = interleave gates chains ∧
      r.routed = chains.countP (fun chain => chain ≠ []) ∧
      r.swaps = (chains.map List.length).sum := by
  induction gates generalizing r with
  | nil =>
    cases h
    exact ⟨[], .nil, rfl, rfl, rfl⟩
  | cons gate gates ih =>
    obtain ⟨hgate, hgates⟩ := List.forall_mem_cons.1 hgates
    obtain ⟨swaps, hswaps, h⟩ := bind_eq_ok.1 h
    obtain ⟨rest, hrest, h⟩ := bind_eq_ok.1 h
    cases h
    obtain ⟨chain, rfl, hfirst⟩ := accompanies_of_exchangesFor hgate hswaps
    obtain ⟨chains, hchains, hlist, hrouted, htotal⟩ := ih hgates hrest
    refine ⟨chain :: chains, .cons hfirst hchains, ?_, ?_, ?_⟩
    · rw [interleave_cons, hlist]
    · rw [List.countP_cons, hrouted]
      cases chain <;> simp
    · simp [htotal]

theorem route_cons_eq_error {gates : List (Gate α)} {e : RoutingError α} :
    g.route width (gate :: gates) = .error e ↔ g.exchangesFor width gate = .error e ∨
      (∃ swaps, g.exchangesFor width gate = .ok swaps) ∧ g.route width gates = .error e := by
  rw [route, bind_eq_error]
  refine or_congr_right ⟨fun ⟨swaps, hswaps, h⟩ => ⟨⟨swaps, hswaps⟩, ?_⟩,
    fun ⟨⟨swaps, hswaps⟩, h⟩ => ⟨swaps, hswaps, bind_eq_error.2 (Or.inl h)⟩⟩
  rcases bind_eq_error.1 h with h | ⟨rest, _, h⟩
  · exact h
  · cases h

/-- **A list that is not routed** has a first gate that is hindered, and the reason is reported. -/
theorem route_eq_error_iff [Gate.FullFidelity α] {gates : List (Gate α)}
    (hgates : ∀ gate ∈ gates, gate.qubits.Nodup) {e : RoutingError α} :
    g.route width gates = .error e ↔ ∃ before gate after, gates = before ++ gate :: after ∧
      (∀ x ∈ before, ∀ e', ¬ Hinders g width x e') ∧ Hinders g width gate e := by
  induction gates with
  | nil => exact iff_of_false (by simp [route]) (by simp)
  | cons first gates ih =>
    obtain ⟨hfirst, hgates⟩ := List.forall_mem_cons.1 hgates
    have hhinders (e' : RoutingError α) :
        g.exchangesFor width first = .error e' ↔ Hinders g width first e' :=
      exchangesFor_eq_error_iff hfirst
    rw [route_cons_eq_error, hhinders, ih hgates]
    constructor
    · rintro (h | ⟨⟨swaps, hswaps⟩, before, gate, after, rfl, hbefore, h⟩)
      · exact ⟨[], first, gates, rfl, List.forall_mem_nil _, h⟩
      · refine ⟨first :: before, gate, after, rfl,
          List.forall_mem_cons.2 ⟨fun e' he' => ?_, hbefore⟩, h⟩
        rw [← hhinders, hswaps] at he'
        cases he'
    · rintro ⟨before, gate, after, heq, hbefore, h⟩
      cases before with
      | nil =>
        cases heq
        exact Or.inl h
      | cons x before =>
        cases heq
        obtain ⟨hx, hbefore⟩ := List.forall_mem_cons.1 hbefore
        refine Or.inr ⟨?_, before, gate, after, rfl, hbefore, h⟩
        -- what is not hindered is routed
        cases hswaps : g.exchangesFor width first with
        | error e' => exact absurd ((hhinders e').1 hswaps) (hx e')
        | ok swaps => exact ⟨swaps, rfl⟩

end Gates

/-! ## Routing over doubles -/

/-- **Routing** puts before every gate on two qubits a walk of exchanges inside the register, one
step short of a shortest path to its second qubit, and nothing before any other gate; leaving the
exchanges out gives the list back, and the figures count the gates with exchanges and the exchanges.
It fails exactly for the first gate whose qubits no walk joins, or whose chosen walk visits a qubit
outside the register. Gates list no qubit twice, as their constructors see to. -/
theorem route_inserts_walks (g : CouplingGraph) (width : ℕ) (gates : List (Gate Float))
    (hgates : ∀ gate ∈ gates, gate.qubits.Nodup) :
    (∀ r, g.route width gates = .ok r → ∃ chains,
      List.Forall₂ (Accompanies g width) gates chains ∧ r.gates = interleave gates chains ∧
      withoutChains chains r.gates = gates ∧
      r.routed = chains.countP (fun chain => chain ≠ []) ∧
      r.swaps = (chains.map List.length).sum) ∧
    ∀ e, g.route width gates = .error e ↔ ∃ before gate after, gates = before ++ gate :: after ∧
      (∀ x ∈ before, ∀ e', ¬ Hinders g width x e') ∧ Hinders g width gate e := by
  refine ⟨fun r hr => ?_, fun e => route_eq_error_iff hgates⟩
  obtain ⟨chains, hchains, hlist, hrouted, hswaps⟩ := route_counts hgates hr
  refine ⟨chains, hchains, hlist, ?_, hrouted, hswaps⟩
  rw [hlist, withoutChains_interleave hchains]

/-- A gate on distant qubits, one on neighbours, and two on other numbers of qubits. -/
def errand : List (Gate Float) :=
  [.plain .h [0], .plain .cnot [0, 4], .plain .cnot [3, 4], .plain .toffoli [0, 1, 2]]

theorem swapChain_oneWay : oneWay.swapChain (α := Float) 0 4 = .ok [(0, 1), (1, 3)] := by
  rw [swapChain, if_neg (by decide), shortestPath_oneWay]
  rfl

theorem route_errand : oneWay.route 5 errand = .ok
    ⟨[.plain .h [0], .plain .swap [0, 1], .plain .swap [1, 3], .plain .cnot [0, 4],
      .plain .cnot [3, 4], .plain .toffoli [0, 1, 2]], 1, 2⟩ := by
  have hswaps : swapGates 5 [(0, 1), (1, 3)] =
      .ok [.plain .swap [0, 1], (.plain .swap [1, 3] : Gate Float)] := by
    rw [swapGates_eq 5 (by decide)]
    rfl
  have hdistant : oneWay.exchangesFor 5 (.plain .cnot [0, 4] : Gate Float) =
      .ok [.plain .swap [0, 1], .plain .swap [1, 3]] :=
    bind_eq_ok.2 ⟨_, swapChain_oneWay, hswaps⟩
  have hbeside : oneWay.exchangesFor 5 (.plain .cnot [3, 4] : Gate Float) = .ok [] := by rfl
  exact bind_eq_ok.2 ⟨[], rfl, bind_eq_ok.2 ⟨_, bind_eq_ok.2 ⟨_, hdistant, bind_eq_ok.2 ⟨_,
    bind_eq_ok.2 ⟨[], hbeside, bind_eq_ok.2 ⟨_, bind_eq_ok.2 ⟨[], rfl, bind_eq_ok.2
      ⟨_, rfl, rfl⟩⟩, rfl⟩⟩, rfl⟩⟩, rfl⟩⟩

/-- On a register of five qubits the list is routed; on one of three the walk leaves the register,
and against the edges there is no walk. -/
theorem route_inserts_walks_errand :
    (∀ gate ∈ errand, gate.qubits.Nodup) ∧
    (∃ r, oneWay.route 5 errand = .ok r ∧ ∃ chains,
      List.Forall₂ (Accompanies oneWay 5) errand chains ∧ withoutChains chains r.gates = errand ∧
      1 = chains.countP (fun chain => chain ≠ []) ∧ 2 = (chains.map List.length).sum) ∧
    oneWay.route 3 errand = .error (.circuit (.qubitOutOfRange 3 3)) ∧
    oneWay.route 5 [.plain .cnot [4, 0]] = .error (.noPath 4 0 : RoutingError Float) := by
  have herrand : ∀ gate ∈ errand, gate.qubits.Nodup := by decide
  obtain ⟨hroutes, -⟩ := route_inserts_walks oneWay 5 errand herrand
  obtain ⟨chains, hchains, -, hwithout, hrouted, hswaps⟩ := hroutes _ route_errand
  refine ⟨herrand, ⟨_, route_errand, chains, hchains, hwithout, hrouted, hswaps⟩, ?_, ?_⟩
  · refine ((route_inserts_walks oneWay 3 errand herrand).2 _).2
      ⟨[.plain .h [0]], _, _, rfl, ?_, .outside rfl swapChain_oneWay
        (escorts_of_swapChain (by decide) swapChain_oneWay) rfl⟩
    refine List.forall_mem_singleton.2 fun e he => ?_
    cases he with
    | apart hqubits => cases hqubits
    | outside hqubits => cases hqubits
  · refine ((route_inserts_walks oneWay 5 [.plain .cnot [4, 0]] (by decide)).2 _).2
      ⟨[], _, [], rfl, List.forall_mem_nil _, .apart rfl ?_⟩
    rw [← shortestPath_isSome_iff, shortestPath_eq_search]
    decide

end CouplingGraph

end QuantumWorkbench
