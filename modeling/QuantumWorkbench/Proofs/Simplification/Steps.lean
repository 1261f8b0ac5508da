import Mathlib
import QuantumWorkbench.Proofs.Gate.Comparison
import QuantumWorkbench.Proofs.Simplification.Cancellation
import QuantumWorkbench.Proofs.Simplification.Fusing
import QuantumWorkbench.Proofs.Simplification.Sweep

/-!
# Simplifying step by step

Whatever the passes do to a list of gates, they do by small steps: a gate is dropped, two neighbours
on different qubits are exchanged, or two neighbouring rotations about one axis are merged. Only the
last can fail. So what every small step keeps, a whole run keeps, and a run fails only where two
neighbours that came up on the way could not be merged.
-/

namespace QuantumWorkbench

/-! ## Answers and faults -/

/-- An answer has one property, or a fault has another. -/
def Yields {ε β : Type} (E : ε → Prop) (R : β → Prop) : Except ε β → Prop
  | .ok b => R b
  | .error e => E e

namespace Yields

variable {ε β γ : Type} {E : ε → Prop} {R R' : β → Prop} {S : γ → Prop} {x : Except ε β}

theorem bind {f : β → Except ε γ} (hx : Yields E R x) (hf : ∀ b, R b → Yields E S (f b)) :
    Yields E S (x >>= f) := by
  cases x with
  | error e => exact hx
  | ok b => exact hf b hx

theorem imp (hx : Yields E R x) (h : ∀ b, R b → R' b) : Yields E R' x := by
  cases x with
  | error e => exact hx
  | ok b => exact h b hx

theorem map {f : β → γ} (hx : Yields E R x) (hf : ∀ b, R b → S (f b)) : Yields E S (x.map f) := by
  cases x with
  | error e => exact hx
  | ok b => exact hf b hx

theorem exists_ok (hx : Yields (fun _ : ε => False) R x) : ∃ b, x = .ok b ∧ R b := by
  cases x with
  | error e => exact hx.elim
  | ok b => exact ⟨b, rfl, hx⟩

end Yields

namespace Simplification

open Gate

variable {α : Type} [Scalar α]

/-- The fidelity of a merged rotation is the product of both, and it was checked. -/
theorem fidelity_mergeRotations {a b m : Gate α} (h : mergeRotations a b = .ok m) :
    checkFidelity (a.fidelity * b.fidelity) = .ok () ∧ m.fidelity = a.fidelity * b.fidelity := by
  obtain ⟨m', -, hfidelity⟩ := bind_eq_ok.1 h
  obtain ⟨hcheck, rfl⟩ := withFidelity_eq_ok.1 hfidelity
  exact ⟨hcheck, rfl⟩

/-! ## Steps -/

/-- What a step puts in the place of a few neighbouring gates. -/
inductive Rule : List (Gate α) → List (Gate α) → Prop where
  /-- Any gate may be left out. -/
  | drop (g : Gate α) : Rule [g] []
  /-- Gates with no qubit in common trade places. -/
  | exchange {a b : Gate α} (h : a.qubits.Disjoint b.qubits) : Rule [a, b] [b, a]
  /-- Two rotations of one kind on one qubit become one. -/
  | merge {a b m : Gate α} (hr : a.isRotation = true) (hkind : a.kind = b.kind)
      (hq : a.qubits = b.qubits) (hm : mergeRotations a b = .ok m) : Rule [a, b] [m]

/-- One step in a list of gates. -/
inductive Step : List (Gate α) → List (Gate α) → Prop where
  | inside (before : List (Gate α)) {part part' : List (Gate α)} (h : Rule part part')
      (after : List (Gate α)) : Step (before ++ part ++ after) (before ++ part' ++ after)

/-- Any number of steps. -/
abbrev Steps : List (Gate α) → List (Gate α) → Prop := Relation.ReflTransGen Step

theorem Step.context {gates gates' : List (Gate α)} (h : Step gates gates')
    (before after : List (Gate α)) : Step (before ++ gates ++ after) (before ++ gates' ++ after) := by
  obtain ⟨before', hrule, after'⟩ := h
  have hstep := Step.inside (before ++ before') hrule (after' ++ after)
  simpa only [List.append_assoc] using hstep

theorem Steps.context {gates gates' : List (Gate α)} (h : Steps gates gates')
    (before after : List (Gate α)) :
    Steps (before ++ gates ++ after) (before ++ gates' ++ after) :=
  h.lift (fun gates => before ++ gates ++ after) fun _ _ hstep => hstep.context before after

theorem Steps.cons {gates gates' : List (Gate α)} (h : Steps gates gates') (g : Gate α) :
    Steps (g :: gates) (g :: gates') := by
  simpa using h.context [g] []

/-- What merged rotations have where both have it, and every gate of a list has, every gate has
after the steps. -/
theorem Steps.forall_mem {P : Gate α → Prop} (hP : MergeClosed P) {gates gates' : List (Gate α)}
    (h : Steps gates gates') (hgates : ∀ g ∈ gates, P g) : ∀ g ∈ gates', P g := by
  induction h with
  | refl => exact hgates
  | tail _ hstep ih =>
    obtain ⟨before, hrule, after⟩ := hstep
    simp only [List.forall_mem_append] at ih ⊢
    obtain ⟨⟨hbefore, hpart⟩, hafter⟩ := ih
    refine ⟨⟨hbefore, ?_⟩, hafter⟩
    cases hrule with
    | drop g => exact List.forall_mem_nil _
    | exchange =>
      simp only [List.forall_mem_cons] at hpart ⊢
      exact ⟨hpart.2.1, hpart.1, hpart.2.2⟩
    | merge hr _ hq hm =>
      simp only [List.forall_mem_cons] at hpart
      exact List.forall_mem_singleton.2 (hP hpart.1 hpart.2.1 hr hq hm)

/-! ## Passes as steps -/

/-- Gates are left out one by one. -/
theorem steps_of_sublist {gates gates' : List (Gate α)} (h : gates'.Sublist gates) :
    Steps gates gates' := by
  induction h with
  | slnil => exact .refl
  | cons g _ ih => exact ih.head (.inside [] (.drop g) _)
  | cons_cons g _ ih => exact ih.cons g

/-- A gate moves ahead of gates on other qubits. -/
theorem steps_advance {g : Gate α} {between : List (Gate α)}
    (h : ∀ x ∈ between, x.qubits.Disjoint g.qubits) : Steps (between ++ [g]) (g :: between) := by
  induction between with
  | nil => exact .refl
  | cons x xs ih =>
    obtain ⟨hx, hxs⟩ := List.forall_mem_cons.1 h
    exact ((ih hxs).cons x).tail (.inside [] (.exchange hx) xs)

theorem steps_carry (g : Gate α) (gs : List (Gate α)) : Steps (g :: gs) (carry g gs).1 := by
  induction gs generalizing g with
  | nil => exact .refl
  | cons h hs ih =>
    unfold carry
    split
    · next hexchange =>
      -- gates of different widths commute only on different qubits
      simp only [Bool.and_eq_true, decide_eq_true_eq] at hexchange
      have hdisjoint := disjoint_of_commutes hexchange.2 (Nat.ne_of_gt hexchange.1)
      exact ((ih g).cons h).head (.inside [] (.exchange hdisjoint) hs)
    · exact (ih h).cons g

theorem steps_reorder (gates : List (Gate α)) : Steps gates (reorder gates).1 := by
  cases gates with
  | nil => exact .refl
  | cons g gs => exact steps_carry g gs

section Pending

variable {P : Gate α → Prop} {pending : Pending α} {g held : Gate α} {q : ℕ}

omit [Scalar α] in
/-- What is held back at other qubits shares none with a rotation. -/
theorem Held.disjoint (hp : Held P pending) (hq : g.qubits = [q]) {part : List (ℕ × Gate α)}
    (hpart : ∀ e ∈ part, e ∈ pending.entries ∧ e.1 ≠ q) :
    ∀ x ∈ part.map Prod.snd, x.qubits.Disjoint g.qubits := by
  intro x hx
  obtain ⟨e, he, rfl⟩ := List.mem_map.1 hx
  obtain ⟨hmem, hne⟩ := hpart e he
  rw [(hp e hmem).2.2, hq]
  simpa using Ne.symm hne

/-- A rotation that is held back comes before those of larger qubits. -/
theorem steps_hold (hp : Held P pending) (hq : g.qubits = [q]) (hnone : pending.get? q = none)
    (gs : List (Gate α)) :
    Steps (pending.values ++ g :: gs) ((pending.insert q g).values ++ gs) := by
  obtain ⟨before, after, hvalues, hinsert, hother⟩ := pending.exists_values_split q
  have hafter := hp.disjoint hq fun e he => hother e (List.mem_append_right _ he)
  have hsteps := (steps_advance hafter).context (before.map Prod.snd) gs
  rw [hvalues, hinsert, hnone]
  simpa using hsteps

/-- A rotation whose qubit holds one back comes right behind that one. The two are merged in place,
or the first of them comes to the front. -/
theorem steps_beside (hp : Held P pending) (hq : g.qubits = [q])
    (hheld : pending.get? q = some held) (gs : List (Gate α)) :
    ∃ before after, Steps (pending.values ++ g :: gs) (before ++ [held, g] ++ after) ∧
      (∀ m, (pending.insert q m).values ++ gs = before ++ [m] ++ after) ∧
      Steps (before ++ [held, g] ++ after) (held :: ((pending.insert q g).values ++ gs)) := by
  obtain ⟨-, -, hheldq⟩ := hp.get? hheld
  obtain ⟨before, after, hvalues, hinsert, hother⟩ := pending.exists_values_split q
  have hbefore := hp.disjoint hheldq fun e he => hother e (List.mem_append_left _ he)
  have hafter := hp.disjoint hq fun e he => hother e (List.mem_append_right _ he)
  refine ⟨before.map Prod.snd, after.map Prod.snd ++ gs, ?_, fun m => ?_, ?_⟩
  · have hsteps := (steps_advance hafter).context (before.map Prod.snd ++ [held]) gs
    rw [hvalues, hheld]
    simpa using hsteps
  · rw [hinsert]
    simp
  · have hsteps := (steps_advance hbefore).context [] (g :: (after.map Prod.snd ++ gs))
    rw [hinsert]
    simpa using hsteps

end Pending

/-! ## Runs as steps -/

/-- Lists of gates with a property that every step keeps. Two neighbouring rotations about one axis
in such a list are merged, or they are not for a reason that is allowed. -/
structure Keeps (Q : List (Gate α) → Prop) (E : CircuitError α → Prop) : Prop where
  wellFormed : ∀ {gates}, Q gates → ∀ g ∈ gates, g.WellFormed
  step : ∀ {gates gates'}, Q gates → Step gates gates' → Q gates'
  merge : ∀ {before a b after}, Q (before ++ [a, b] ++ after) → a.isRotation = true →
    a.kind = b.kind → a.qubits = b.qubits → Yields E (fun _ => True) (mergeRotations a b)

namespace Keeps

variable {Q : List (Gate α) → Prop} {E : CircuitError α → Prop}

theorem steps (hQ : Keeps Q E) {gates gates' : List (Gate α)} (h : Q gates)
    (hsteps : Steps gates gates') : Q gates' := by
  induction hsteps with
  | refl => exact h
  | tail _ hstep ih => exact hQ.step ih hstep

theorem fuseFrom (hQ : Keeps Q E) {pending : Pending α} {gates : List (Gate α)}
    (hp : Held (fun _ => True) pending) (h : Q (pending.values ++ gates)) :
    Yields E (Steps (pending.values ++ gates)) (Simplification.fuseFrom pending gates) := by
  induction gates generalizing pending with
  | nil =>
    rw [List.append_nil]
    exact .refl
  | cons g gs ih =>
    cases hr : g.isRotation with
    | false =>
      -- all that is held back is put out, and the gates behind are fused on their own
      have htail : Q gs := by
        have hsub : gs.Sublist (pending.values ++ g :: gs) :=
          (List.sublist_cons_self g gs).trans (List.sublist_append_right _ _)
        exact hQ.steps h (steps_of_sublist hsub)
      rw [fuseFrom_release hr]
      refine (ih (held_empty _) htail).map fun rest hrest => ?_
      have hrest : Steps gs rest := hrest
      simpa using hrest.context (pending.values ++ [g]) []
    | true =>
      have hg := hQ.wellFormed h g (by simp)
      have hq := hg.rotation_qubits hr
      cases hget : pending.get? (g.qubits.headD 0) with
      | none =>
        have hsteps := steps_hold hp hq hget gs
        rw [fuseFrom_hold hr hq hget]
        exact (ih (hp.insert trivial hr hq) (hQ.steps h hsteps)).imp fun _ => hsteps.trans
      | some held =>
        obtain ⟨-, hheldr, hheldq⟩ := hp.get? hget
        obtain ⟨before, after, hbeside, hinsert, hfront⟩ := steps_beside hp hq hget gs
        by_cases hkind : held.kind = g.kind
        · have hmerge := hQ.merge (hQ.steps h hbeside) hheldr hkind (hheldq.trans hq.symm)
          rw [fuseFrom_merge hr hq hget hkind]
          cases hm : mergeRotations held g with
          | error e => rwa [hm] at hmerge
          | ok m =>
            have hsteps : Steps (pending.values ++ g :: gs)
                ((pending.insert (g.qubits.headD 0) m).values ++ gs) := by
              rw [hinsert]
              exact hbeside.tail
                (.inside before (.merge hheldr hkind (hheldq.trans hq.symm) hm) after)
            have hheld : Held (fun _ => True) (pending.insert (g.qubits.headD 0) m) :=
              hp.merge (fun _ _ _ _ _ => trivial) trivial hq hget hm
            exact (ih hheld (hQ.steps h hsteps)).imp fun _ => hsteps.trans
        · have hsteps := hbeside.trans hfront
          have htail := (hQ.steps h hsteps : Q (held :: _))
          rw [fuseFrom_replace hr hq hget hkind]
          refine (ih (hp.insert trivial hr hq) ?_).map fun rest hrest => ?_
          · exact hQ.step htail (.inside [] (.drop held) _)
          · exact hsteps.trans (Steps.cons hrest held)

/-- **A pass simplifies by steps**, or it fails for a reason that is allowed. -/
theorem apply (hQ : Keeps Q E) (pass : Pass) {gates : List (Gate α)} (h : Q gates) :
    Yields E (fun r => Steps gates r.1) (pass.apply gates) := by
  cases pass with
  | dropDead => exact steps_of_sublist List.filter_sublist
  | fuse =>
    have hfuse := hQ.fuseFrom (held_empty _) h
    exact hfuse.bind fun fused hfused => hfused
  | cancelInverses lookahead => exact steps_of_sublist (cancelFrom_sublist lookahead 0 gates)
  | reorder => exact steps_reorder gates

theorem sweep (hQ : Keeps Q E) (counts : List PassCount) {gates : List (Gate α)} (h : Q gates) :
    Yields E (fun r => Steps gates r.1) (Simplification.sweep gates counts) := by
  induction counts generalizing gates with
  | nil => exact .refl
  | cons count counts ih =>
    rw [Simplification.sweep]
    refine (hQ.apply count.pass h).bind fun first hfirst => ?_
    refine (ih (hQ.steps h hfirst)).bind fun rest hrest => ?_
    exact hfirst.trans hrest

/-- **Sweeps simplify by steps**, however many are allowed, or they fail for a reason that is
allowed. -/
theorem sweeps (hQ : Keeps Q E) (maxSweeps : ℕ) (counts : List PassCount) {gates : List (Gate α)}
    (h : Q gates) :
    Yields E (fun r => Steps gates r.1) (Simplification.sweeps maxSweeps gates counts) := by
  induction maxSweeps generalizing gates counts with
  | zero => exact .refl
  | succ m ih =>
    rw [Simplification.sweeps]
    refine (hQ.sweep counts h).bind ?_
    rintro ⟨gates', counts', changed⟩ hfirst
    cases changed with
    | false => exact hfirst
    | true =>
      refine (ih counts' (hQ.steps h hfirst)).bind fun rest hrest => ?_
      exact hfirst.trans hrest

/-- **A run simplifies by steps**, or it fails for a reason that is allowed. Its outcome is the
circuit with its gates simplified and nothing else changed but what tells so. -/
theorem run (hQ : Keeps Q E) (passes : List Pass) (maxSweeps : ℕ) {c : Circuit α} (h : Q c.gates) :
    Yields E (fun o => Steps c.gates o.circuit.gates ∧
        (∃ names, o.circuit = (c.withGates o.circuit.gates).markOptimized names) ∧
        o.before = c.gates.length ∧ o.after = o.circuit.gates.length)
      (Simplification.run passes maxSweeps c) :=
  (hQ.sweeps maxSweeps _ h).bind fun _ hsteps => ⟨hsteps, ⟨_, rfl⟩, rfl, rfl⟩

end Keeps

end Simplification

end QuantumWorkbench
