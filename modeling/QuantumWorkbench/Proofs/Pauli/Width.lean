import Mathlib
import QuantumWorkbench.Proofs.Circuit.Appending
import QuantumWorkbench.Proofs.Pauli.Evolution
import QuantumWorkbench.Proofs.Pauli.Reading

/-!
# The width of a Hamiltonian

The width is read off the last factor of each term, while the gates of a step act on the qubits of
all factors. Both agree as long as the highest qubit stands last in some term and has a successor in
a word; otherwise the width is too small, and evolution fails over the qubits it leaves out.
-/

namespace QuantumWorkbench

/-! ## Covering qubits -/

namespace Qubit

/-- The least register that holds some qubits. -/
def cover (qs : List ℕ) : ℕ := qs.foldr (fun q n => max (q + 1) n) 0

theorem cover_cons (q : ℕ) (qs : List ℕ) : cover (q :: qs) = max (q + 1) (cover qs) := rfl

theorem cover_le_iff {qs : List ℕ} {n : ℕ} : cover qs ≤ n ↔ ∀ q ∈ qs, q < n := by
  induction qs with
  | nil => simp [cover]
  | cons q qs ih => rw [cover_cons, max_le_iff, List.forall_mem_cons, ih, Nat.succ_le_iff]

theorem lt_cover {qs : List ℕ} : ∀ q ∈ qs, q < cover qs := cover_le_iff.1 le_rfl

/-- The last qubit of the least register is one of those it has to hold. -/
theorem mem_of_cover_eq_succ {qs : List ℕ} {n : ℕ} (h : cover qs = n + 1) : n ∈ qs := by
  by_contra hn
  have hle : cover qs ≤ n := cover_le_iff.2 fun q hq => by
    have hlt : q < n + 1 := h ▸ lt_cover q hq
    have hne : q ≠ n := fun heq => hn (heq ▸ hq)
    omega
  omega

theorem cover_eq_foldl_max (q : ℕ) (qs : List ℕ) : cover (q :: qs) = qs.foldl max q + 1 := by
  induction qs generalizing q with
  | nil => rfl
  | cons r qs ih =>
    rw [List.foldl_cons, ← ih, cover_cons, cover_cons, cover_cons, ← max_assoc,
      Nat.add_max_add_right]

end Qubit

/-! ## Last factors -/

namespace PauliTerm

variable {α : Type} {t : PauliTerm α}

/-- The qubits of a term grow from factor to factor. -/
def Sorted (t : PauliTerm α) : Prop := (t.factors.map Prod.snd).Pairwise (· < ·)

theorem mem_of_lastQubit? {q : ℕ} (h : t.lastQubit? = some q) : q ∈ t.factors.map Prod.snd := by
  obtain ⟨f, hf, rfl⟩ := Option.map_eq_some_iff.1 h
  exact List.mem_map_of_mem (List.mem_of_getLast? hf)

/-- In a sorted term the last qubit is the highest. -/
theorem Sorted.exists_lastQubit? (ht : t.Sorted) {q : ℕ} (hq : q ∈ t.factors.map Prod.snd) :
    ∃ last, t.lastQubit? = some last ∧ q ≤ last := by
  obtain ⟨before, last, hfactors⟩ := List.eq_nil_or_concat t.factors |>.resolve_left fun hnil => by
    rw [hnil] at hq
    cases hq
  rw [List.concat_eq_append] at hfactors
  refine ⟨last.2, by rw [lastQubit?, hfactors, List.getLast?_concat, Option.map_some], ?_⟩
  rw [Sorted, hfactors, List.map_append, List.pairwise_append] at ht
  rw [hfactors, List.map_append, List.mem_append] at hq
  rcases hq with hq | hq
  · exact (ht.2.2 q hq last.2 (List.mem_singleton_self _)).le
  · exact (List.mem_singleton.1 hq).le

end PauliTerm

/-! ## The width -/

namespace Hamiltonian

variable {α : Type} {h : Hamiltonian α}

/-- The factors of all terms. -/
def factors (h : Hamiltonian α) : List PauliFactor := h.terms.flatMap PauliTerm.factors

/-- One more than the highest qubit of a factor; zero without any factor. -/
def reach (h : Hamiltonian α) : ℕ := Qubit.cover (h.factors.map Prod.snd)

theorem mem_map_factors {q : ℕ} :
    q ∈ h.factors.map Prod.snd ↔ ∃ t ∈ h.terms, q ∈ t.factors.map Prod.snd := by
  simp only [factors, List.map_flatMap, List.mem_flatMap]

theorem reach_le_iff {n : ℕ} :
    h.reach ≤ n ↔ ∀ t ∈ h.terms, ∀ f ∈ t.factors, f.2 < n := by
  simp only [reach, Qubit.cover_le_iff, List.forall_mem_map, factors, List.mem_flatMap]
  exact ⟨fun hlt t ht f hf => hlt f ⟨t, ht, hf⟩, fun hlt f ⟨t, ht, hf⟩ => hlt t ht f hf⟩

/-- The last qubits of the terms that have any. -/
def lastQubits (h : Hamiltonian α) : List ℕ := h.terms.filterMap PauliTerm.lastQubit?

theorem mem_lastQubits {q : ℕ} : q ∈ h.lastQubits ↔ ∃ t ∈ h.terms, t.lastQubit? = some q :=
  List.mem_filterMap

theorem qubits_eq (h : Hamiltonian α) : h.qubits = Index.wrap (Qubit.cover h.lastQubits) := by
  rw [qubits, lastQubits]
  cases h.terms.filterMap PauliTerm.lastQubit? with
  | nil => rfl
  | cons q qs => rw [Qubit.cover_eq_foldl_max]; rfl

theorem cover_lastQubits_le (h : Hamiltonian α) : Qubit.cover h.lastQubits ≤ h.reach := by
  refine Qubit.cover_le_iff.2 fun q hq => Qubit.lt_cover q ?_
  obtain ⟨t, ht, hlast⟩ := mem_lastQubits.1 hq
  exact mem_map_factors.2 ⟨t, ht, PauliTerm.mem_of_lastQubit? hlast⟩

theorem qubits_le_reach (h : Hamiltonian α) : h.qubits ≤ h.reach := by
  rw [qubits_eq]
  exact (Index.wrap_le _).trans h.cover_lastQubits_le

/-- The highest qubit is the last one of some term, or there is none. -/
def EndsHighest (h : Hamiltonian α) : Prop :=
  h.reach = 0 ∨ ∃ t ∈ h.terms, t.lastQubit? = some (h.reach - 1)

/-- The width covers all qubits where the highest of them stands last in some term and the number
after it is still an index. -/
theorem qubits_eq_reach_iff : h.qubits = h.reach ↔ h.reach < Index.limit ∧ h.EndsHighest := by
  have hle := h.cover_lastQubits_le
  rw [qubits_eq]
  constructor
  · intro heq
    have hlimit : h.reach < Index.limit := heq ▸ Index.wrap_lt _
    -- within a word nothing wraps around, so the last qubits reach as far as all of them
    rw [Index.wrap_of_lt (hle.trans_lt hlimit)] at heq
    refine ⟨hlimit, ?_⟩
    rcases Nat.eq_zero_or_eq_succ_pred h.reach with hzero | hsucc
    · exact .inl hzero
    · exact .inr (mem_lastQubits.1 (Qubit.mem_of_cover_eq_succ (heq.trans hsucc)))
  · rintro ⟨hlimit, hends⟩
    rw [Index.wrap_of_lt (hle.trans_lt hlimit)]
    refine le_antisymm hle ?_
    rcases hends with hzero | hlast
    · exact hzero.le.trans (Nat.zero_le _)
    · exact Nat.le_of_pred_lt (Qubit.lt_cover _ (mem_lastQubits.2 hlast))

/-- Sorted terms end with their highest qubits. -/
theorem endsHighest_of_sorted (hsorted : ∀ t ∈ h.terms, t.Sorted) : h.EndsHighest := by
  rcases Nat.eq_zero_or_eq_succ_pred h.reach with hzero | hsucc
  · exact .inl hzero
  · -- the term with the highest qubit ends there or above, and nothing is above
    obtain ⟨t, ht, hmem⟩ := mem_map_factors.1 (Qubit.mem_of_cover_eq_succ hsucc)
    obtain ⟨last, hlast, hle⟩ := (hsorted t ht).exists_lastQubit? hmem
    have hlt : last < h.reach :=
      Qubit.lt_cover last (mem_map_factors.2 ⟨t, ht, PauliTerm.mem_of_lastQubit? hlast⟩)
    exact .inr ⟨t, ht, by rw [hlast, show last = h.reach - 1 by omega]⟩

/-! ## Sorted terms -/

section

variable [Scalar α] [NumberText α]

/-- Hamiltonians whose terms are made from factors: put together term by term, read from a text, or
a chain in a transverse field. -/
inductive Assembled : Hamiltonian α → Prop where
  | empty : Assembled ⟨[]⟩
  | withTerm {h : Hamiltonian α} {coefficient : α} {factors : List PauliFactor} {t : PauliTerm α}
      (hh : Assembled h) (ht : PauliTerm.make coefficient factors = .ok t) :
      Assembled ⟨h.terms ++ [t]⟩
  | read {text : String} {h : Hamiltonian α} (hread : Hamiltonian.read text = .ok h) : Assembled h
  | transverseField (n : ℕ) (coupling field : α) : Assembled (transverseField n coupling field)

omit [Scalar α] [NumberText α] in
theorem sorted_of_mem_transverseField {n : ℕ} {coupling field : α} :
    ∀ t ∈ (transverseField n coupling field).terms, t.Sorted := by
  intro t ht
  rcases List.mem_append.1 ht with ht | ht
  · -- a coupling names a qubit and the one before
    obtain ⟨q, hq, rfl⟩ := List.mem_map.1 ht
    have hlt : q - 1 < q := Nat.sub_lt (List.mem_range'_1.1 hq).1 one_pos
    simpa [PauliTerm.Sorted] using hlt
  · obtain ⟨q, -, rfl⟩ := List.mem_map.1 ht
    exact List.pairwise_singleton _ _

theorem Assembled.sorted (hh : h.Assembled) : ∀ t ∈ h.terms, t.Sorted := by
  induction hh with
  | empty => exact fun t ht => absurd ht List.not_mem_nil
  | withTerm _ ht ih =>
    exact List.forall_mem_append.2
      ⟨ih, List.forall_mem_singleton.2 (PauliTerm.make_eq_ok_iff.1 ht).2.2⟩
  | read hread =>
    intro t ht
    obtain ⟨ps, hps⟩ := (exists_isReadFrom hread).1 t ht
    exact hps.sorted
  | transverseField n coupling field => exact sorted_of_mem_transverseField

end

end Hamiltonian

/-! ## Evolution -/

namespace Pauli

variable {α : Type}

/-- The ladder of two or more factors visits all their qubits. -/
theorem exists_mem_parityLadder {fs : List PauliFactor} (hlen : 2 ≤ fs.length) :
    ∀ f ∈ fs, ∃ p ∈ (parityLadder fs : List (Placement α)), f.2 ∈ p.qubits := by
  induction fs with
  | nil => exact absurd hlen (by simp)
  | cons a fs ih =>
    rcases fs with - | ⟨b, - | ⟨d, rest⟩⟩
    · exact absurd hlen (by simp)
    · intro f hf
      refine ⟨_, List.mem_cons_self, ?_⟩
      simpa [Placement.of] using (List.mem_map_of_mem (f := Prod.snd) hf)
    · intro f hf
      rcases List.mem_cons.1 hf with rfl | hf
      · exact ⟨_, List.mem_cons_self, List.mem_cons_self⟩
      · obtain ⟨p, hp, hmem⟩ := ih (by simp) f hf
        exact ⟨p, List.mem_cons_of_mem _ hp, hmem⟩

/-- The gates of a term act on the qubits of all its factors. -/
theorem exists_mem_termGates [Scalar α] {t : PauliTerm α} (dt : α) :
    ∀ f ∈ t.factors, ∃ p ∈ termGates dt t, f.2 ∈ p.qubits := by
  obtain ⟨coefficient, fs⟩ := t
  rcases fs with - | ⟨a, - | ⟨b, rest⟩⟩
  · exact fun f hf => absurd hf List.not_mem_nil
  · intro f hf
    rw [List.mem_singleton.1 hf]
    exact ⟨_, List.mem_cons_self, List.mem_cons_self⟩
  · -- with two factors or more the ladder alone visits them all
    intro f hf
    obtain ⟨p, hp, hmem⟩ := exists_mem_parityLadder (α := α) (by simp) f hf
    refine ⟨p, ?_, hmem⟩
    simp only [termGates, stringGates, List.mem_append]
    exact .inl (.inl (.inl (.inr hp)))

end Pauli

namespace Hamiltonian

variable {α : Type} [Scalar α] {h : Hamiltonian α}

/-- A step that is placed has a register that holds every factor. -/
theorem reach_le_of_accepts {c : Circuit α} {dt : α} {gates : List (Gate α)}
    (haccepts : c.Accepts (h.stepGates dt) gates) : h.reach ≤ c.width := by
  refine reach_le_iff.2 fun t ht f hf => ?_
  obtain ⟨p, hp, hmem⟩ := Pauli.exists_mem_termGates dt f hf
  exact haccepts.lt_width p (List.mem_flatMap.2 ⟨t, ht, hp⟩) f.2 hmem

/-- An evolution that is made has the register of the Hamiltonian, which can be stored and holds
every factor. -/
theorem of_evolution_eq_ok {time : α} {steps : ℕ} {c : Circuit α}
    (hc : h.evolution time steps = .ok c) :
    c.width = h.qubits ∧ h.reach ≤ h.qubits ∧ Storage.holdsPairs h.qubits = true := by
  unfold evolution at hc
  split at hc
  · cases hc
  · dsimp only at hc
    split at hc
    · cases hc
    · obtain ⟨_, hregister, hc⟩ := bind_eq_ok.1 hc
      obtain ⟨step, hbuild, hc⟩ := bind_eq_ok.1 hc
      obtain ⟨gates, haccepts, rfl⟩ := Circuit.build_eq_ok_iff.1 hbuild
      obtain rfl := Except.ok.inj hc
      exact ⟨rfl, reach_le_of_accepts haccepts, Circuit.checkRegister_eq_ok_iff.1 hregister⟩

/-- A Hamiltonian with factors is evolved where its width covers them and can be stored. -/
theorem exists_evolution_eq_ok [Gate.FullFidelity α] {time : α} {steps : ℕ} (hsteps : steps ≠ 0)
    (hnodup : ∀ t ∈ h.terms, (t.factors.map Prod.snd).Nodup) (hpositive : 0 < h.qubits)
    (hreach : h.reach ≤ h.qubits) (hstored : Storage.holdsPairs h.qubits = true) :
    ∃ c, h.evolution time steps = .ok c := by
  have hterms : ∀ t ∈ h.terms, t.InRegister h.qubits := fun t ht =>
    ⟨hnodup t ht, reach_le_iff.1 hreach t ht⟩
  have hbuild := Circuit.build_of_fitsIn h.qubits
    (fitsIn_stepGates hterms (time / Scalar.num steps))
  -- one step is placed, and its gates are repeated without another check
  rw [evolution, if_neg hsteps]
  dsimp only
  rw [if_neg hpositive.ne', Circuit.checkRegister_eq_ok_iff.2 hstored, hbuild]
  exact ⟨_, rfl⟩

/-- **When the width of a Hamiltonian covers its qubits.** The highest qubit has to stand last in
some term, and its successor has to be an index; terms that were made from factors end with their
highest qubits, so for them only the last index is left out. Without a qubit repeated inside a term,
a Hamiltonian with factors is evolved in any positive number of steps exactly where its width covers
its qubits and the register can be stored, and the circuit then has a qubit for each of them. -/
theorem width_covers_iff [Gate.FullFidelity α] [NumberText α] (h : Hamiltonian α) :
    (h.qubits = h.reach ↔ h.reach < Index.limit ∧ h.EndsHighest) ∧
    (h.Assembled → (h.qubits = h.reach ↔ h.reach < Index.limit)) ∧
    ((∀ t ∈ h.terms, (t.factors.map Prod.snd).Nodup) → h.reach ≠ 0 →
      ∀ (time : α) (steps : ℕ), steps ≠ 0 →
        ((∃ c, h.evolution time steps = .ok c) ↔
          h.qubits = h.reach ∧ Storage.holdsPairs h.reach = true) ∧
        ∀ c, h.evolution time steps = .ok c → c.width = h.reach) := by
  refine ⟨qubits_eq_reach_iff, fun hassembled => ?_, fun hnodup hreach time steps hsteps => ?_⟩
  · rw [qubits_eq_reach_iff]
    exact and_iff_left (endsHighest_of_sorted hassembled.sorted)
  · have hmade : ∀ c, h.evolution time steps = .ok c → c.width = h.reach ∧
        h.qubits = h.reach ∧ Storage.holdsPairs h.reach = true := fun c hc => by
      obtain ⟨hwidth, hle, hstored⟩ := of_evolution_eq_ok hc
      have hqubits : h.qubits = h.reach := le_antisymm h.qubits_le_reach hle
      exact ⟨hwidth.trans hqubits, hqubits, hqubits ▸ hstored⟩
    refine ⟨⟨fun ⟨c, hc⟩ => (hmade c hc).2, fun ⟨hqubits, hstored⟩ => ?_⟩,
      fun c hc => (hmade c hc).1⟩
    exact exists_evolution_eq_ok hsteps hnodup (hqubits ▸ Nat.pos_of_ne_zero hreach) hqubits.ge
      (hqubits ▸ hstored)

/-- A chain of three spins has three qubits and is evolved. -/
theorem width_covers_chain :
    let h : Hamiltonian Float := transverseField 3 1 0.5
    h.qubits = 3 ∧ ∃ c, h.evolution 1 2 = .ok c ∧ c.width = 3 := by
  intro h
  have hnodup : ∀ t ∈ h.terms, (t.factors.map Prod.snd).Nodup := fun t ht =>
    (sorted_of_mem_transverseField t ht).imp fun hlt => hlt.ne
  obtain ⟨-, hassembled, hevolution⟩ := width_covers_iff h
  have hqubits : h.qubits = h.reach := (hassembled (.transverseField 3 1 0.5)).2 (by decide)
  obtain ⟨hok, hwidth⟩ := hevolution hnodup (by decide) 1 2 two_ne_zero
  obtain ⟨c, hc⟩ := hok.2 ⟨hqubits, by decide⟩
  exact ⟨rfl, c, hc, hwidth c hc⟩

/-- A product whose factors stand in the opposite order has two qubits and the width one, so its
evolution fails over the second qubit. The width of a field on the last index is zero. -/
theorem width_misses_qubits :
    let opposite : Hamiltonian Float := ⟨[⟨1, [(.z, 1), (.z, 0)]⟩]⟩
    let last : Hamiltonian Float := ⟨[⟨1, [(.z, Index.limit - 1)]⟩]⟩
    (opposite.reach = 2 ∧ opposite.qubits = 1 ∧
      opposite.evolution 1 1 = .error (.circuit (.qubitOutOfRange 1 1))) ∧
    last.reach = Index.limit ∧ last.qubits = 0 ∧ last.evolution 1 1 = .error .noQubits :=
  ⟨⟨rfl, rfl, rfl⟩, rfl, rfl, rfl⟩

end Hamiltonian

end QuantumWorkbench
