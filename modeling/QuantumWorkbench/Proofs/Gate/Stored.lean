import Mathlib
import QuantumWorkbench.Proofs.Register.Operator
import QuantumWorkbench.Proofs.Simplification.Fusing

/-!
# Gates with their matrices stored

A gate is kept with its matrix beside its kind and parameters, and every operation writes the fields
that it changes: a constructor and an inversion have to make the matrix anew, a change of the
fidelity has not. Kept in this way a gate still is a gate whose matrix follows from the other fields,
whichever operations it went through, so the parts of a stored gate never disagree.
-/

namespace QuantumWorkbench

/-- A gate with its matrix in a field of its own. -/
structure StoredGate (α : Type) where
  kind : GateKind
  qubits : List ℕ
  parameters : Parameters α
  matrix : SquareMatrix α
  fidelity : α

namespace StoredGate

open Gate

variable {α : Type} [Scalar α]

/-! ## Operations field by field -/

/-- A gate with parameters: the fidelity is taken out of them, the matrix is made from the rest. -/
def make (kind : GateKind) (qubits : List ℕ) (parameters : Parameters α) :
    Except (CircuitError α) (StoredGate α) := do
  checkQubits kind qubits
  let fidelity := (parameters.get? fidelityKey).getD 1
  let parameters := parameters.erase fidelityKey
  checkFidelity fidelity
  checkStorage kind qubits.length
  return ⟨kind, qubits, parameters, kind.unitary parameters qubits.length, fidelity⟩

/-- A rotation of one qubit by an angle. -/
def rotation (kind : GateKind) (qubit : ℕ) (angle : α) :
    Except (CircuitError α) (StoredGate α) :=
  match kind.angleKey with
  | some key => make kind [qubit] (SortedMap.empty.insert key angle)
  | none => .error (.notRotation kind.name)

/-- A custom gate, of which the matrix is overwritten where the parts fit. -/
def ofParts (qubits : List ℕ) (re im : List α) : Except (CircuitError α) (StoredGate α) := do
  let g ← make .custom qubits .empty
  match SquareMatrix.ofParts? re im g.qubits.length with
  | some matrix => return { g with matrix }
  | none => return g

/-- A gate that is not checked. -/
def plain (kind : GateKind) (qubits : List ℕ) : StoredGate α :=
  ⟨kind, qubits, .empty, kind.unitary .empty qubits.length, 1⟩

/-- Overwrites the fidelity. -/
def withFidelity (g : StoredGate α) (fidelity : α) : Except (CircuitError α) (StoredGate α) := do
  checkFidelity fidelity
  return { g with fidelity }

/-- Scales the fidelity by what a noise level leaves. -/
def withNoise (g : StoredGate α) (level : α) : StoredGate α :=
  let most : α := 1 - Scalar.unitGap
  let level := if level < 0 then 0 else if most < level then most else level
  { g with fidelity := g.fidelity * (1 - level) }

/-- The inverse: the angle is overwritten, or the kind, and the matrix is made anew; otherwise the
kind becomes custom and the matrix is transposed and conjugated. -/
def inverse (g : StoredGate α) : StoredGate α :=
  match g.kind.angleKey with
  | some key =>
    let parameters := g.parameters.insert key (-(g.parameters.get? key).getD 0)
    { g with parameters, matrix := g.kind.unitary parameters g.qubits.length }
  | none =>
    match g.kind.adjoint with
    | some kind => { g with kind, matrix := kind.unitary g.parameters g.qubits.length }
    | none => { g with kind := .custom, matrix := g.matrix.dagger }

/-- Unchecked gates of the kinds and on the qubits of given ones. -/
def plainAll (gates : List (Gate α)) : List (StoredGate α) :=
  gates.map fun g => plain g.kind g.qubits

/-- The gates that a gate is written out in. There is no answer where a qubit is asked for that the
gate does not have. -/
def expansion? (g : StoredGate α) : Option (List (StoredGate α)) :=
  match g.kind with
  | .toffoli => do
    let a ← g.qubits[0]?
    let b ← g.qubits[1]?
    let c ← g.qubits[2]?
    return plainAll (toffoliNetwork a b c)
  | .cz => do
    let a ← g.qubits[0]?
    let b ← g.qubits[1]?
    return [plain .h [b], plain .cnot [a, b], plain .h [b]]
  | .swap => do
    let a ← g.qubits[0]?
    let b ← g.qubits[1]?
    return [plain .cnot [a, b], plain .cnot [b, a], plain .cnot [a, b]]
  | .fredkin => do
    let a ← g.qubits[0]?
    let b ← g.qubits[1]?
    let c ← g.qubits[2]?
    return plain .cnot [c, b] :: plainAll (toffoliNetwork a b c) ++ [plain .cnot [c, b]]
  | _ => some [g]

/-- The first qubits of a gate, as far as its kind has controls; none if there are too few. -/
def controlQubits? (g : StoredGate α) : Option (List ℕ) :=
  if g.kind.controls ≤ g.qubits.length then some (g.qubits.take g.kind.controls) else none

/-- The qubits behind the controls; none if there are too few. -/
def targetQubits? (g : StoredGate α) : Option (List ℕ) :=
  if g.kind.controls ≤ g.qubits.length then some (g.qubits.drop g.kind.controls) else none

/-- Two rotations as one. -/
def merge (first second : StoredGate α) : Except (CircuitError α) (StoredGate α) := do
  let merged ← make first.kind (first.qubits.take 1)
    (Simplification.addParameters first.parameters second.parameters)
  merged.withFidelity (first.fidelity * second.fidelity)

/-- Whether a simulation skips a gate, since its matrix has not the side that its qubits ask for. -/
def isSkipped (g : StoredGate α) : Bool := g.matrix.dim != Qubit.dimension g.qubits.length

end StoredGate

namespace Gate

open StoredGate

variable {α : Type} [Scalar α]

/-- A gate as it is stored. -/
def stored (g : Gate α) : StoredGate α := ⟨g.kind, g.qubits, g.parameters, g.matrix, g.fidelity⟩

/-! ## Both forms do the same -/

/-- Where the second steps of two chains correspond, the chains do. -/
theorem bind_eq_map_bind {ε β γ δ : Type} {x : Except ε β} {f : β → Except ε γ} {f' : β → Except ε δ}
    {g : γ → δ} (h : ∀ b, f' b = (f b).map g) : x >>= f' = (x >>= f).map g := by
  cases x with
  | error => rfl
  | ok b => exact h b

theorem stored_make (kind : GateKind) (qubits : List ℕ) (parameters : Parameters α) :
    StoredGate.make kind qubits parameters = (Gate.make kind qubits parameters).map stored := by
  apply bind_eq_map_bind
  intro _
  apply bind_eq_map_bind
  intro _
  apply bind_eq_map_bind
  intro _
  rfl

theorem stored_rotation (kind : GateKind) (qubit : ℕ) (angle : α) :
    StoredGate.rotation kind qubit angle = (Gate.rotation kind qubit angle).map stored := by
  unfold StoredGate.rotation Gate.rotation
  cases kind.angleKey with
  | none => rfl
  | some key => exact stored_make _ _ _

theorem stored_ofParts (qubits : List ℕ) (re im : List α) :
    StoredGate.ofParts qubits re im = (Gate.ofParts qubits re im).map stored := by
  unfold StoredGate.ofParts Gate.ofParts
  rw [stored_make]
  cases hmake : Gate.make .custom qubits (.empty : Parameters α) with
  | error => rfl
  | ok g =>
    obtain ⟨-, -, -, rfl⟩ := make_eq_ok.1 hmake
    simp only [Except.map, stored, bind, Except.bind]
    cases SquareMatrix.ofParts? re im qubits.length with
    | some matrix => rfl
    | none => rfl

theorem stored_withFidelity (g : Gate α) (fidelity : α) :
    g.stored.withFidelity fidelity = (g.withFidelity fidelity).map stored :=
  bind_eq_map_bind fun _ => rfl

theorem stored_inverse (g : Gate α) : g.stored.inverse = g.inverse.stored := by
  unfold StoredGate.inverse Gate.inverse
  cases hkey : g.kind.angleKey with
  | some key =>
    have hangle : g.angle.getD 0 = (g.parameters.get? key).getD 0 := by
      rw [angle, hkey, Option.map_some, Option.getD_some]
    simp only [stored, hkey, hangle]
    rfl
  | none =>
    cases hadjoint : g.kind.adjoint with
    | some kind => simp only [stored, hkey, hadjoint]; rfl
    | none => simp only [stored, hkey, hadjoint]; rfl

theorem stored_merge (a b : Gate α) :
    StoredGate.merge a.stored b.stored = (Simplification.mergeRotations a b).map stored := by
  have hmake := stored_make a.kind (a.qubits.take 1)
    (Simplification.addParameters a.parameters b.parameters)
  unfold StoredGate.merge Simplification.mergeRotations
  show StoredGate.make a.kind (a.qubits.take 1)
    (Simplification.addParameters a.parameters b.parameters) >>= _ = _
  rw [hmake]
  cases Gate.make a.kind (a.qubits.take 1)
    (Simplification.addParameters a.parameters b.parameters) with
  | error => rfl
  | ok merged => exact stored_withFidelity merged _

theorem stored_expansion {g : Gate α} (hg : g.WellFormed) :
    g.stored.expansion? = some (g.expansion.map stored) := by
  unfold StoredGate.expansion?
  cases hg.expands with
  | toffoli hk hq hlist | cz hk hq hlist | swap hk hq hlist | fredkin hk hq hlist =>
    simp only [stored, hk, hq, hlist]
    rfl
  -- a kind without an expansion is looked up in no other branch
  | self hk hlist =>
    rw [hlist]
    cases hkind : g.kind <;> simp_all [stored]

end Gate

namespace GateKind

variable {α : Type} [Scalar α]

theorem isFull_unitary (k : GateKind) (parameters : Parameters α) (n : ℕ) :
    (k.unitary parameters n).isFull = true := by
  cases k <;>
    simp [unitary, SquareMatrix.isFull, SquareMatrix.ofRows, SquareMatrix.exchange,
      SquareMatrix.identity, SquareMatrix.ofFn]

/-- A gate has at least as many qubits as its kind has controls. -/
theorem controls_le {k : GateKind} {n : ℕ} (h : ∀ m, k.arity = some m → n = m) :
    k.controls ≤ n := by
  cases k <;> first | exact Nat.zero_le n | (rw [h _ rfl]; decide)

end GateKind

namespace StoredGate

open Gate

variable {α : Type} [Scalar α]

/-! ## Obtainable gates -/

/-- The gates that the operations make, in any order. -/
inductive Obtainable : StoredGate α → Prop where
  | make {kind qubits parameters g} (h : StoredGate.make kind qubits parameters = .ok g) :
      Obtainable g
  | rotation {kind qubit angle g} (h : StoredGate.rotation kind qubit angle = .ok g) : Obtainable g
  | ofParts {qubits re im g} (h : StoredGate.ofParts qubits re im = .ok g) : Obtainable g
  | withFidelity {g fidelity g'} (hg : Obtainable g) (h : g.withFidelity fidelity = .ok g') :
      Obtainable g'
  | withNoise {g} (hg : Obtainable g) (level : α) : Obtainable (g.withNoise level)
  | inverse {g} (hg : Obtainable g) : Obtainable g.inverse
  | expansion {g gates g'} (hg : Obtainable g) (h : g.expansion? = some gates) (hmem : g' ∈ gates) :
      Obtainable g'
  | merge {a b g} (ha : Obtainable a) (hb : Obtainable b) (h : merge a b = .ok g) : Obtainable g

/-- **Obtainable gates are the stored forms of constructed gates**. -/
theorem Obtainable.exists_built {s : StoredGate α} (hs : s.Obtainable) :
    ∃ g : Gate α, g.Built ∧ g.stored = s := by
  -- every operation on stored gates comes from one on gates, so a gate can be carried along
  induction hs with
  | make h =>
    obtain ⟨g, hg, rfl⟩ := map_eq_ok.1 ((stored_make _ _ _).symm.trans h)
    exact ⟨g, .make hg, rfl⟩
  | rotation h =>
    obtain ⟨g, hg, rfl⟩ := map_eq_ok.1 ((stored_rotation _ _ _).symm.trans h)
    exact ⟨g, .rotation hg, rfl⟩
  | ofParts h =>
    obtain ⟨g, hg, rfl⟩ := map_eq_ok.1 ((stored_ofParts _ _ _).symm.trans h)
    exact ⟨g, .ofParts hg, rfl⟩
  | withFidelity _ h ih =>
    obtain ⟨g, hg, rfl⟩ := ih
    obtain ⟨g', hg', rfl⟩ := map_eq_ok.1 ((stored_withFidelity _ _).symm.trans h)
    exact ⟨g', hg.withFidelity hg', rfl⟩
  | withNoise _ level ih =>
    obtain ⟨g, hg, rfl⟩ := ih
    exact ⟨g.withNoise level, hg.withNoise level, rfl⟩
  | inverse _ ih =>
    obtain ⟨g, hg, rfl⟩ := ih
    exact ⟨g.inverse, hg.inverse, (stored_inverse g).symm⟩
  | expansion _ h hmem ih =>
    obtain ⟨g, hg, rfl⟩ := ih
    obtain rfl := Option.some.inj ((stored_expansion hg.wellFormed).symm.trans h)
    obtain ⟨g', hg', rfl⟩ := List.mem_map.1 hmem
    exact ⟨g', hg.expansion hg', rfl⟩
  | merge _ _ h iha ihb =>
    obtain ⟨a, -, rfl⟩ := iha
    obtain ⟨b, -, rfl⟩ := ihb
    obtain ⟨m, hm, rfl⟩ := map_eq_ok.1 ((stored_merge a b).symm.trans h)
    exact ⟨m, (Simplification.mergeRotations_eq_ok hm).1, rfl⟩

theorem obtainable_of_built {g : Gate α} (hg : g.Built) : g.stored.Obtainable := by
  induction hg with
  | make h => exact .make ((stored_make _ _ _).trans (map_eq_ok.2 ⟨_, h, rfl⟩))
  | ofParts h => exact .ofParts ((stored_ofParts _ _ _).trans (map_eq_ok.2 ⟨_, h, rfl⟩))
  | withFidelity _ h ih =>
    exact ih.withFidelity ((stored_withFidelity _ _).trans (map_eq_ok.2 ⟨_, h, rfl⟩))
  | withNoise _ level ih => exact ih.withNoise level
  | @inverse g _ ih => exact stored_inverse g ▸ ih.inverse
  | expansion hg h ih =>
    exact ih.expansion (stored_expansion hg.wellFormed) (List.mem_map_of_mem h)

/-- **Fusing makes obtainable gates of obtainable gates**. -/
theorem obtainable_of_fuse {gates out : List (Gate α)} (hgates : ∀ g ∈ gates, g.Built)
    (h : Simplification.fuse gates = .ok out) : ∀ g ∈ out, g.stored.Obtainable := by
  have hfusing := (Simplification.fuse_eq_ok_iff (wellFormed_of_built hgates)).1 h
  intro g hg
  exact obtainable_of_built
    (hfusing.forall_mem Simplification.mergeClosed_built (Simplification.held_empty _) hgates g hg)

/-! ## Sound gates -/

/-- The fields of a stored gate agree. -/
structure IsSound (g : StoredGate α) : Prop where
  nodup : g.qubits.Nodup
  nonempty : g.qubits ≠ []
  arity : ∀ n, g.kind.arity = some n → g.qubits.length = n
  side : g.matrix.dim = Qubit.dimension g.qubits.length
  full : g.matrix.entries.size = g.matrix.dim * g.matrix.dim
  matrix : g.kind ≠ .custom → g.matrix = g.kind.unitary g.parameters g.qubits.length
  fidelityTaken : g.parameters.get? fidelityKey = none

/-- A gate is skipped where the simulation leaves the vector as it is, whatever it holds. -/
theorem act_of_isSkipped {g : Gate α} (h : g.stored.isSkipped = true)
    (amplitudes : Array (Amplitude α)) : g.act amplitudes = amplitudes :=
  act_of_dim_ne (bne_iff_ne.1 h) amplitudes

theorem isFull_matrix {g : Gate α} (hg : g.WellFormed) : g.matrix.isFull = true := by
  cases hm : g.ownMatrix with
  | some m => rw [Gate.matrix, hm]; exact (hg.shape m hm).2
  | none => rw [WellFormed.matrix_eq_of_none hm]; exact g.kind.isFull_unitary _ _

theorem isSound_stored {g : Gate α} (hg : g.WellFormed) : g.stored.IsSound where
  nodup := hg.nodup
  nonempty := hg.nonempty
  arity := hg.arity
  side := hg.dim_matrix
  full := beq_iff_eq.1 (isFull_matrix hg)
  matrix := hg.matrix_eq
  fidelityTaken := hg.fidelityTaken

theorem Obtainable.isSound {g : StoredGate α} (hg : g.Obtainable) : g.IsSound := by
  obtain ⟨g', hbuilt, rfl⟩ := hg.exists_built
  exact isSound_stored hbuilt.wellFormed

/-- **Every obtainable gate is sound**, and is the stored form of a constructed gate: its qubits are
different and as many as its kind asks for, its matrix has the side and the number of entries that
belong to them and is, but for a custom gate, the one of its kind and parameters, and the fidelity is
not among these. So a simulation never skips a gate for the size of its matrix, and controls, targets
and the gates it is written out in are always there. -/
theorem obtainable_sound {g : StoredGate α} (hg : g.Obtainable) :
    (∃ r : Gate α, r.Built ∧ r.stored = g) ∧ g.IsSound ∧
    (g.qubits.length < 64 → g.matrix.dim = 2 ^ g.qubits.length ∧
      g.matrix.entries.size = 4 ^ g.qubits.length) ∧
    g.isSkipped = false ∧
    (∃ controls targets, g.controlQubits? = some controls ∧ g.targetQubits? = some targets ∧
      controls ++ targets = g.qubits) ∧
    ∃ gates, g.expansion? = some gates ∧ ∀ g' ∈ gates, g'.Obtainable := by
  have hsound := hg.isSound
  have hcontrols : g.kind.controls ≤ g.qubits.length := GateKind.controls_le hsound.arity
  refine ⟨hg.exists_built, hsound, fun hword => ?_, ?_, ⟨g.qubits.take g.kind.controls,
    g.qubits.drop g.kind.controls, if_pos hcontrols, if_pos hcontrols, List.take_append_drop _ _⟩,
    ?_⟩
  · have hside : g.matrix.dim = 2 ^ g.qubits.length :=
      hsound.side.trans (Register.dimension_eq hword)
    rw [hsound.full, hside, ← Nat.mul_pow]
    exact ⟨rfl, rfl⟩
  · rw [isSkipped, hsound.side, bne_self_eq_false]
  · obtain ⟨r, hr, rfl⟩ := hg.exists_built
    refine ⟨_, stored_expansion hr.wellFormed, fun g' hg' => ?_⟩
    exact hg.expansion (stored_expansion hr.wellFormed) hg'

/-- Two turns of one qubit, of which the second is noisy, as one. -/
def fusedTurn : Except (CircuitError Float) (StoredGate Float) := do
  let a ← rotation .rz 3 0.5
  let b ← rotation .rz 3 0.25
  merge a (b.withNoise 0.5)

theorem obtainable_sound_fusedTurn : ∃ g, fusedTurn = .ok g ∧ g.inverse.Obtainable ∧
    g.inverse.IsSound ∧ g.inverse.isSkipped = false := by
  have hmade : fusedTurn.toOption.isSome = true := by decide +kernel
  cases hfused : fusedTurn with
  | error e =>
    rw [hfused] at hmade
    cases hmade
  | ok g =>
    obtain ⟨a, ha, hrest⟩ := bind_eq_ok.1 hfused
    obtain ⟨b, hb, hmerge⟩ := bind_eq_ok.1 hrest
    have hg : g.inverse.Obtainable :=
      (Obtainable.merge (.rotation ha) ((Obtainable.rotation hb).withNoise 0.5) hmerge).inverse
    obtain ⟨-, hsound, -, hacts, -⟩ := obtainable_sound hg
    exact ⟨g, rfl, hg, hsound, hacts⟩

end StoredGate

end QuantumWorkbench
