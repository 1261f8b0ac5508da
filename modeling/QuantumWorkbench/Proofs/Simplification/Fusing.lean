import QuantumWorkbench.Proofs.Gate.Construction
import QuantumWorkbench.Simplification.Fusion
import QuantumWorkbench.SortedMap.Group

/-!
# How rotations are fused

Fusing is read as a derivation: what happens at each gate, from the first to the last. What is held
back is one rotation for each qubit, at that qubit. Facts about fusing are shown by induction on the
derivation, with one case for each way to treat a gate.
-/

namespace QuantumWorkbench.Simplification

open Gate

variable {α : Type} [Scalar α]

/-! ## Merging -/

theorem get?_addParameters (first second : Parameters α) (k : String) :
    (addParameters first second).get? k =
      match second.get? k with
      | some x => some
          (if k = timeKey then (first.get? k).getD x else (first.get? k).getD 0 + x)
      | none => first.get? k := by
  -- the second parameters carried out one by one, each with its key at hand
  let f : Option α → String × α → α := fun old e =>
    if e.1 = timeKey then old.getD e.2 else old.getD 0 + e.2
  have hall : addParameters first second =
      first.updateAll f (second.entries.map fun e => (e.1, e)) := by
    rw [SortedMap.updateAll_eq_foldl, List.foldl_map]
    rfl
  have hfilter : (second.entries.map fun e => (e.1, e)).filter (fun x => x.1 = k) =
      (second.get? k).toList.map fun x => (k, (k, x)) := by
    rw [List.filter_map, show ((fun x : String × String × α => decide (x.1 = k)) ∘
      fun e : String × α => (e.1, e)) = fun e => decide (e.1 = k) from rfl,
      Entries.filter_key k second.sorted, List.map_map]
    rfl
  rw [hall, SortedMap.get?_updateAll, hfilter]
  cases second.get? k <;> rfl

/-- What merging returns: a constructed rotation of the same kind on the first qubit. -/
theorem mergeRotations_eq_ok {a b m : Gate α} (h : mergeRotations a b = .ok m) :
    m.Built ∧ m.kind = a.kind ∧ m.qubits = a.qubits.take 1 ∧
      m.parameters = (addParameters a.parameters b.parameters).erase fidelityKey := by
  obtain ⟨m', hmake, hfidelity⟩ := bind_eq_ok.1 h
  have hbuilt := Built.withFidelity (.make hmake) hfidelity
  obtain ⟨-, -, -, rfl⟩ := make_eq_ok.1 hmake
  obtain ⟨-, rfl⟩ := withFidelity_eq_ok.1 hfidelity
  exact ⟨hbuilt, rfl, rfl, rfl⟩

/-- **Merging two rotations fails only over the product of their fidelities**: the constructor finds
nothing to object to. -/
theorem mergeRotations_eq {a b : Gate α} (ha : a.WellFormed) (hb : b.WellFormed)
    (hone : checkFidelity (1 : α) = .ok ()) (hr : a.isRotation = true) :
    mergeRotations a b = (checkFidelity (a.fidelity * b.fidelity)).map fun _ =>
      ⟨a.kind, a.qubits.take 1, (addParameters a.parameters b.parameters).erase fidelityKey, none,
        a.fidelity * b.fidelity⟩ := by
  have hqubits : a.qubits.take 1 = [a.qubits.headD 0] := by
    rw [ha.rotation_qubits hr]
    rfl
  have hnone : (addParameters a.parameters b.parameters).get? fidelityKey = none := by
    rw [get?_addParameters, hb.fidelityTaken, ha.fidelityTaken]
  -- the checks of the constructor, one by one
  have hcheck : checkQubits (α := α) a.kind (a.qubits.take 1) = .ok () := by
    rw [hqubits]
    simp [checkQubits, GateKind.arity_of_isRotation hr, Qubit.firstRepeated]
  have hstorage : checkStorage (α := α) a.kind (a.qubits.take 1).length = .ok () := by
    unfold checkStorage
    cases hk : a.kind <;>
      simp [isRotation, hk, GateKind.isRotation, GateKind.angleKey] at hr <;> rfl
  have hmake : Gate.make a.kind (a.qubits.take 1) (addParameters a.parameters b.parameters) =
      .ok ⟨a.kind, a.qubits.take 1, (addParameters a.parameters b.parameters).erase fidelityKey,
        none, 1⟩ :=
    make_eq_ok.2 ⟨hcheck, by rw [hnone]; exact hone, hstorage, by rw [hnone]; rfl⟩
  rw [mergeRotations, hmake]
  change (checkFidelity (a.fidelity * b.fidelity) >>= fun _ => _) = _
  cases checkFidelity (a.fidelity * b.fidelity) <;> rfl

/-! ## One gate -/

section Equations

variable {pending : Pending α} {g held : Gate α} {gs : List (Gate α)} {q : Nat}

/-- The first rotation of a qubit is held back. -/
theorem fuseFrom_hold (hr : g.isRotation = true) (hq : g.qubits = [q])
    (hnone : pending.get? q = none) :
    fuseFrom pending (g :: gs) = fuseFrom (pending.insert q g) gs := by
  simp [fuseFrom, hr, hq, hnone]

/-- A rotation of the same kind is merged into the one that is held back. -/
theorem fuseFrom_merge (hr : g.isRotation = true) (hq : g.qubits = [q])
    (hheld : pending.get? q = some held) (hkind : held.kind = g.kind) :
    fuseFrom pending (g :: gs) =
      mergeRotations held g >>= fun m => fuseFrom (pending.insert q m) gs := by
  simp [fuseFrom, hr, hq, hheld, hkind]

/-- A rotation of another kind puts out the one that is held back. -/
theorem fuseFrom_replace (hr : g.isRotation = true) (hq : g.qubits = [q])
    (hheld : pending.get? q = some held) (hkind : held.kind ≠ g.kind) :
    fuseFrom pending (g :: gs) = (fuseFrom (pending.insert q g) gs).map (held :: ·) := by
  simp only [fuseFrom, hr, hq, hheld, hkind, if_true, if_false, List.headD_cons]
  cases fuseFrom (pending.insert q g) gs <;> rfl

/-- Any other gate puts out all that is held back. -/
theorem fuseFrom_release (hr : g.isRotation = false) :
    fuseFrom pending (g :: gs) =
      (fuseFrom .empty gs).map fun rest => pending.values ++ g :: rest := by
  simp only [fuseFrom, hr]
  cases fuseFrom .empty gs <;> rfl

end Equations

/-! ## Derivations -/

/-- How a list of gates is fused on top of the rotations held back. -/
inductive Fusing : Pending α → List (Gate α) → List (Gate α) → Prop where
  /-- In the end all that is held back is put out. -/
  | done (pending : Pending α) : Fusing pending [] pending.values
  /-- A rotation is held back where nothing is held on its qubit. -/
  | hold {pending g gs q out} (hr : g.isRotation = true) (hq : g.qubits = [q])
      (hnone : pending.get? q = none) (rest : Fusing (pending.insert q g) gs out) :
      Fusing pending (g :: gs) out
  /-- A rotation of the kind that is held is merged into it, and the result is held back. -/
  | merge {pending g held merged gs q out} (hr : g.isRotation = true) (hq : g.qubits = [q])
      (hheld : pending.get? q = some held) (hkind : held.kind = g.kind)
      (hmerged : mergeRotations held g = .ok merged)
      (rest : Fusing (pending.insert q merged) gs out) : Fusing pending (g :: gs) out
  /-- A rotation of another kind puts out what is held on its qubit and takes its place. -/
  | replace {pending g held gs q out} (hr : g.isRotation = true) (hq : g.qubits = [q])
      (hheld : pending.get? q = some held) (hkind : held.kind ≠ g.kind)
      (rest : Fusing (pending.insert q g) gs out) : Fusing pending (g :: gs) (held :: out)
  /-- Any other gate comes after all that is held back, on whatever qubits. -/
  | release {pending g gs out} (hr : g.isRotation = false) (rest : Fusing .empty gs out) :
      Fusing pending (g :: gs) (pending.values ++ g :: out)

/-- **Fusing succeeds** exactly where there is a derivation. -/
theorem fuseFrom_eq_ok_iff {pending : Pending α} {gates out : List (Gate α)}
    (hgates : ∀ g ∈ gates, g.WellFormed) :
    fuseFrom pending gates = .ok out ↔ Fusing pending gates out := by
  constructor
  · intro h
    induction gates generalizing pending out with
    | nil =>
      cases h
      exact .done pending
    | cons g gs ih =>
      obtain ⟨hg, hgs⟩ := List.forall_mem_cons.1 hgates
      -- the four equations, by whether the gate rotates and by what its qubit holds back
      cases hr : g.isRotation with
      | false =>
        rw [fuseFrom_release hr] at h
        obtain ⟨rest, hrest, rfl⟩ := map_eq_ok.1 h
        exact .release hr (ih hgs hrest)
      | true =>
        have hq := hg.rotation_qubits hr
        cases hget : pending.get? (g.qubits.headD 0) with
        | none =>
          rw [fuseFrom_hold hr hq hget] at h
          exact .hold hr hq hget (ih hgs h)
        | some held =>
          by_cases hkind : held.kind = g.kind
          · rw [fuseFrom_merge hr hq hget hkind] at h
            obtain ⟨merged, hmerged, hrest⟩ := bind_eq_ok.1 h
            exact .merge hr hq hget hkind hmerged (ih hgs hrest)
          · rw [fuseFrom_replace hr hq hget hkind] at h
            obtain ⟨rest, hrest, rfl⟩ := map_eq_ok.1 h
            exact .replace hr hq hget hkind (ih hgs hrest)
  · intro h
    induction h with
    | done => rfl
    | hold hr hq hnone _ ih =>
      rw [fuseFrom_hold hr hq hnone]
      exact ih (List.forall_mem_cons.1 hgates).2
    | merge hr hq hheld hkind hmerged _ ih =>
      rw [fuseFrom_merge hr hq hheld hkind]
      exact bind_eq_ok.2 ⟨_, hmerged, ih (List.forall_mem_cons.1 hgates).2⟩
    | replace hr hq hheld hkind _ ih =>
      rw [fuseFrom_replace hr hq hheld hkind]
      exact map_eq_ok.2 ⟨_, ih (List.forall_mem_cons.1 hgates).2, rfl⟩
    | release hr _ ih =>
      rw [fuseFrom_release hr]
      exact map_eq_ok.2 ⟨_, ih (List.forall_mem_cons.1 hgates).2, rfl⟩

/-- A derivation for a list of gates is one for fusing it. -/
theorem fuse_eq_ok_iff {gates out : List (Gate α)} (hgates : ∀ g ∈ gates, g.WellFormed) :
    fuse gates = .ok out ↔ Fusing .empty gates out := fuseFrom_eq_ok_iff hgates

/-! ## What is held back -/

/-- Rotations with a property are held back, each at its own qubit. -/
def Held (P : Gate α → Prop) (pending : Pending α) : Prop :=
  ∀ e ∈ pending.entries, P e.2 ∧ e.2.isRotation = true ∧ e.2.qubits = [e.1]

omit [Scalar α] in
theorem held_empty (P : Gate α → Prop) : Held P .empty := fun _ he => by cases he

omit [Scalar α] in
theorem Held.insert {P : Gate α → Prop} {pending : Pending α} (hp : Held P pending) {q : Nat}
    {g : Gate α} (hg : P g) (hr : g.isRotation = true) (hq : g.qubits = [q]) :
    Held P (pending.insert q g) := fun e he => by
  rcases SortedMap.mem_entries_insert he with rfl | he
  · exact ⟨hg, hr, hq⟩
  · exact hp e he

omit [Scalar α] in
theorem Held.get? {P : Gate α → Prop} {pending : Pending α} (hp : Held P pending) {q : Nat}
    {held : Gate α} (h : pending.get? q = some held) :
    P held ∧ held.isRotation = true ∧ held.qubits = [q] := hp _ (SortedMap.mem_entries_of_get? h)

omit [Scalar α] in
theorem Held.values {P : Gate α → Prop} {pending : Pending α} (hp : Held P pending) :
    ∀ g ∈ pending.values, P g := fun g hg => by
  obtain ⟨e, he, rfl⟩ := List.mem_map.1 hg
  exact (hp e he).1

/-- A property that merged rotations have where both rotations have it. -/
def MergeClosed (P : Gate α → Prop) : Prop :=
  ∀ {a b merged : Gate α}, P a → P b → a.isRotation = true → a.qubits = b.qubits →
    mergeRotations a b = .ok merged → P merged

theorem mergeClosed_built : MergeClosed (α := α) Built :=
  fun _ _ _ _ h => (mergeRotations_eq_ok h).1

theorem mergeClosed_builtIn (width : Nat) : MergeClosed (α := α) (BuiltIn width) := by
  intro a b merged ha _ _ _ h
  obtain ⟨hbuilt, -, hqubits, -⟩ := mergeRotations_eq_ok h
  exact ⟨hbuilt, fun q hq => ha.inside q (List.mem_of_mem_take (hqubits ▸ hq))⟩

theorem mergeRotations_qubits {a b merged : Gate α} {q : Nat} (hq : a.qubits = [q])
    (h : mergeRotations a b = .ok merged) : merged.kind = a.kind ∧ merged.qubits = [q] := by
  obtain ⟨-, hkind, hqubits, -⟩ := mergeRotations_eq_ok h
  exact ⟨hkind, by rw [hqubits, hq]; rfl⟩

theorem Held.merge {P : Gate α → Prop} (hP : MergeClosed P) {pending : Pending α}
    (hp : Held P pending) {q : Nat} {g held merged : Gate α} (hg : P g) (hq : g.qubits = [q])
    (hheld : pending.get? q = some held) (hmerged : mergeRotations held g = .ok merged) :
    Held P (pending.insert q merged) := by
  obtain ⟨hPheld, hr, hheldq⟩ := hp.get? hheld
  obtain ⟨hkind, hqubits⟩ := mergeRotations_qubits hheldq hmerged
  have hmr : merged.isRotation = true := by rw [isRotation, hkind]; exact hr
  exact hp.insert (hP hPheld hg hr (hheldq.trans hq.symm) hmerged) hmr hqubits

namespace Fusing

variable {pending : Pending α} {gates out : List (Gate α)}

/-- What all gates have that go in, all gates have that come out. -/
theorem forall_mem {P : Gate α → Prop} (hP : MergeClosed P) (h : Fusing pending gates out)
    (hp : Held P pending) (hgates : ∀ g ∈ gates, P g) : ∀ g ∈ out, P g := by
  induction h with
  | done pending => exact hp.values
  | hold hr hq _ _ ih =>
    obtain ⟨hg, hgs⟩ := List.forall_mem_cons.1 hgates
    exact ih (hp.insert hg hr hq) hgs
  | merge _ hq hheld _ hmerged _ ih =>
    obtain ⟨hg, hgs⟩ := List.forall_mem_cons.1 hgates
    exact ih (hp.merge hP hg hq hheld hmerged) hgs
  | replace hr hq hheld _ _ ih =>
    obtain ⟨hg, hgs⟩ := List.forall_mem_cons.1 hgates
    exact List.forall_mem_cons.2 ⟨(hp.get? hheld).1, ih (hp.insert hg hr hq) hgs⟩
  | release _ _ ih =>
    obtain ⟨hg, hgs⟩ := List.forall_mem_cons.1 hgates
    exact List.forall_mem_append.2
      ⟨hp.values, List.forall_mem_cons.2 ⟨hg, ih (held_empty P) hgs⟩⟩

/-- Fusing never adds a gate. -/
theorem length_le (h : Fusing pending gates out) :
    out.length ≤ pending.values.length + gates.length := by
  -- holding back adds one to what is held, merging and replacing do not
  induction h with
  | done => simp
  | hold _ _ hnone _ ih =>
    rw [SortedMap.length_values_insert_of_none _ hnone] at ih
    rw [List.length_cons]
    omega
  | merge _ _ hheld _ _ _ ih =>
    rw [SortedMap.length_values_insert_of_some _ hheld] at ih
    rw [List.length_cons]
    omega
  | replace _ _ hheld _ _ ih =>
    rw [SortedMap.length_values_insert_of_some _ hheld] at ih
    rw [List.length_cons, List.length_cons]
    omega
  | release _ _ ih =>
    simp only [SortedMap.values, SortedMap.empty, List.map_nil, List.length_nil] at ih
    simp only [List.length_append, List.length_cons]
    omega

end Fusing

end QuantumWorkbench.Simplification
