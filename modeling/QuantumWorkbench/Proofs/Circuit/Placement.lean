import Mathlib
import QuantumWorkbench.Proofs.Circuit.Appending
import QuantumWorkbench.Proofs.Gate.Fidelity
import QuantumWorkbench.Proofs.Gate.Inverse
import QuantumWorkbench.Proofs.Gate.Network
import QuantumWorkbench.Proofs.Register.Layer

/-!
# Families that fit their register

A placement fits a register when its gate can be made and lies in it. A family of such placements is
placed as a whole, and its effect on a wave is the composition of what its gates do.
-/

namespace QuantumWorkbench

open Gate Register

theorem GateKind.hasStorage_of_arity {k : GateKind} {n : ℕ} (h : k.arity = some n) :
    k.hasStorage n = true := by
  cases k <;> simp only [arity, Option.some.injEq, reduceCtorEq] at h <;> subst h <;> rfl

theorem GateKind.arity_le {k : GateKind} {n : ℕ} (h : k.arity = some n) : n ≤ 3 := by
  cases k <;> simp only [arity, Option.some.injEq, reduceCtorEq] at h <;> omega

theorem GateKind.ne_custom_of_arity {k : GateKind} {n : ℕ} (h : k.arity = some n) :
    k ≠ .custom := by
  rintro rfl
  cases h

namespace Placement

/-! ## The gate of a placement -/

section

variable {α : Type} [Scalar α]

/-- The parameters of the gate of a placement. -/
def parameters (p : Placement α) : Parameters α :=
  match p.angle, p.kind.angleKey with
  | some angle, some key => SortedMap.empty.insert key angle
  | _, _ => .empty

/-- The gate of a placement that is accepted. -/
def made (p : Placement α) : Gate α := ⟨p.kind, p.qubits, p.parameters, none, 1⟩

/-- The gate of a placement is one of the catalog that can be made, and lies in a register. -/
structure FitsIn (width : ℕ) (p : Placement α) : Prop where
  catalog : p.kind.arity.isSome = true
  gate : p.gate = .ok p.made
  inside : ∀ q ∈ p.qubits, q < width

@[simp] theorem made_of (k : GateKind) (qs : List ℕ) : (of k qs : Placement α).made = plain k qs :=
  rfl

theorem angle_made_of {k : GateKind} (hk : k.isRotation = false) (qs : List ℕ) :
    (of k qs : Placement α).made.angle = none := by
  have hkey : k.angleKey = none := Option.not_isSome_iff_eq_none.1 (Bool.eq_false_iff.1 hk)
  simp only [made_of, Gate.angle, plain, hkey, Option.map_none]

/-- A placed rotation keeps its angle. -/
theorem angle_made_turn {k : GateKind} (hk : k.isRotation = true) (q : ℕ) (angle : α) :
    (turn k q angle).made.angle = some angle := by
  obtain ⟨key, hkey⟩ := Option.isSome_iff_exists.1 hk
  simp only [Gate.angle, made, parameters, turn, hkey, Option.map_some,
    SortedMap.get?_insert_self, Option.getD_some]

theorem built_of_gate {p : Placement α} {g : Gate α} (h : p.gate = .ok g) : g.Built := by
  unfold Placement.gate at h
  split at h
  · exact .rotation h
  · exact .make h

theorem FitsIn.builtIn {width : ℕ} {p : Placement α} (hp : p.FitsIn width) :
    p.made.BuiltIn width := ⟨built_of_gate hp.gate, hp.inside⟩

end

section

variable {α : Type} [Scalar α] [FullFidelity α] {width : ℕ}

theorem fitsIn_of {k : GateKind} {qs : List ℕ} (hk : k.arity = some qs.length) (hqs : qs.Nodup)
    (hinside : ∀ q ∈ qs, q < width) : (of k qs : Placement α).FitsIn width := by
  have hqubits : checkQubits (α := α) k qs = .ok () := by
    simp [checkQubits, hk, Qubit.firstRepeated_eq_none_iff.2 hqs]
  exact ⟨by rw [of, hk, Option.isSome_some],
    make_plain hqubits (GateKind.hasStorage_of_arity hk), hinside⟩

theorem fitsIn_one {k : GateKind} (hk : k.arity = some 1) {q : ℕ} (hq : q < width) :
    (of k [q] : Placement α).FitsIn width :=
  fitsIn_of hk (List.nodup_singleton q) (by simpa using hq)

theorem fitsIn_two {k : GateKind} (hk : k.arity = some 2) {p q : ℕ} (hne : p ≠ q) (hp : p < width)
    (hq : q < width) : (of k [p, q] : Placement α).FitsIn width :=
  fitsIn_of hk (by simpa using hne) (by simp [hp, hq])

/-- A rotation keeps its angle: it is stored under another key than the fidelity. -/
theorem fitsIn_turn {k : GateKind} (hk : k.isRotation = true) {q : ℕ} (hq : q < width)
    (angle : α) : (turn k q angle : Placement α).FitsIn width := by
  have hinside : ∀ p ∈ (turn k q angle : Placement α).qubits, p < width := by
    simpa [turn] using hq
  cases k <;> simp only [GateKind.isRotation, GateKind.angleKey, Option.isSome_none,
    Bool.false_eq_true] at hk
  all_goals exact ⟨rfl, make_eq_ok.2 ⟨rfl, FullFidelity.check, rfl, rfl⟩, hinside⟩

end

section

variable {width : ℕ}

/-- A placed rotation turns its qubit about the axis of its kind. -/
theorem operator_made_turn {k : GateKind} {axis : Axis} (hk : k.isRotation = true)
    (haxis : k.axis = some axis) (q : ℕ) (angle : ℝ) :
    (turn k q angle : Placement ℝ).made.operator = turnAt axis q angle := by
  have hwell : (turn k q angle : Placement ℝ).made.WellFormed :=
    (fitsIn_turn hk (Nat.lt_succ_self q) angle).builtIn.built.wellFormed
  obtain ⟨axis', haxis', hoperator⟩ := operator_rotation hwell hk
  cases haxis.symm.trans haxis'
  rw [hoperator, angle_made_turn hk q angle]
  rfl

end

/-! ## The effect of a family -/

/-- What the gates of a family do to a wave, the first one first. -/
noncomputable def effect (ps : List (Placement ℝ)) : Wave →ₗ[ℂ] Wave := operatorAll (ps.map made)

@[simp] theorem effect_nil : effect [] = LinearMap.id := rfl

theorem effect_cons (p : Placement ℝ) (ps : List (Placement ℝ)) :
    effect (p :: ps) = effect ps ∘ₗ p.made.operator := rfl

@[simp] theorem effect_of (k : GateKind) (qs : List ℕ) :
    effect [of k qs] = (plain k qs).operator := LinearMap.id_comp _

theorem effect_turn {k : GateKind} {axis : Axis} (hk : k.isRotation = true)
    (haxis : k.axis = some axis) (q : ℕ) (angle : ℝ) :
    effect [turn k q angle] = turnAt axis q angle := by
  rw [effect_cons, operator_made_turn hk haxis, effect_nil, LinearMap.id_comp]

theorem effect_append (ps qs : List (Placement ℝ)) :
    effect (ps ++ qs) = effect qs ∘ₗ effect ps := by
  rw [effect, List.map_append, operatorAll_append]
  rfl

theorem effect_flatMap_cons {β : Type} (f : β → List (Placement ℝ)) (b : β) (bs : List β) :
    effect ((b :: bs).flatMap f) = effect (bs.flatMap f) ∘ₗ effect (f b) := by
  rw [List.flatMap_cons, effect_append]

/-- Gates that put one matrix on one qubit for each item of a list act as a layer. -/
theorem effect_flatMap_eq_layer {ι : Type} {qubit : ι → ℕ} {A : ι → Matrix (Fin 2) (Fin 2) ℂ}
    {f : ι → List (Placement ℝ)} (h : ∀ i, effect (f i) = applyAt [qubit i] (A i)) (is : List ι) :
    effect (is.flatMap f) = layer qubit A is := by
  induction is with
  | nil => rfl
  | cons i is ih => rw [effect_flatMap_cons, ih, h, layer]

/-- **The inverse gates of a family in reverse order** undo its effect. -/
theorem undo_effect {width : ℕ} {ps : List (Placement ℝ)} (hps : ∀ p ∈ ps, p.FitsIn width) :
    operatorAll ((ps.map made).reverse.map Gate.inverse) ∘ₗ effect ps = LinearMap.id := by
  apply operatorAll_inverse
  intro g hg
  obtain ⟨p, hp, rfl⟩ := List.mem_map.1 hg
  have hbuilt := (hps p hp).builtIn.built
  obtain ⟨n, hn⟩ := Option.isSome_iff_exists.1 (hps p hp).catalog
  -- gates of the catalog are narrow, so their matrices can be counted by a word
  have hlen : p.made.width < 64 := by
    rw [show p.made.width = n from hbuilt.wellFormed.arity n hn]
    exact (GateKind.arity_le hn).trans_lt (by decide)
  exact ⟨hbuilt, hlen, hbuilt.wellFormed.isUnitary hlen (GateKind.ne_custom_of_arity hn)⟩

end Placement

namespace Circuit

open Placement

variable {α : Type} [Scalar α]

/-! ## Placing a family -/

theorem gateFor_of_fitsIn {c : Circuit α} {p : Placement α} (hp : p.FitsIn c.width) :
    c.gateFor p = .ok p.made := gateFor_eq_ok_iff.2 ⟨hp.gate, hp.inside⟩

theorem accepts_of_fitsIn {c : Circuit α} {ps : List (Placement α)}
    (hps : ∀ p ∈ ps, p.FitsIn c.width) : c.Accepts ps (ps.map made) :=
  List.forall₂_map_right_iff.2 (List.forall₂_same.2 fun p hp => gateFor_of_fitsIn (hps p hp))

/-- A family that fits is placed gate by gate, and nothing is refused. -/
theorem gatesFor_of_fitsIn {c : Circuit α} {ps : List (Placement α)}
    (hps : ∀ p ∈ ps, p.FitsIn c.width) : c.gatesFor ps = (ps.map made, none) :=
  gatesFor_eq_none_iff.2 (accepts_of_fitsIn hps)

/-- Placing a family on a circuit that is there already. -/
theorem append_of_fitsIn {c : Circuit α} {ps : List (Placement α)}
    (hps : ∀ p ∈ ps, p.FitsIn c.width) :
    c.append (.ok ps) = (c.appendGates (ps.map made), none) := by
  rw [append, extend, gatesFor_of_fitsIn hps]
  rfl

/-- Placing a family on a fresh circuit. -/
theorem build_of_fitsIn {width : ℕ} (bits : ℕ) {ps : List (Placement α)}
    (hps : ∀ p ∈ ps, p.FitsIn width) :
    build width bits ps = .ok ((blank width bits).appendGates (ps.map made)) :=
  build_eq_ok_iff.2 ⟨_, accepts_of_fitsIn hps, rfl⟩

theorem builtIn_map_made {width : ℕ} {ps : List (Placement α)} (hps : ∀ p ∈ ps, p.FitsIn width) :
    ∀ g ∈ ps.map made, g.BuiltIn width := by
  intro g hg
  obtain ⟨p, hp, rfl⟩ := List.mem_map.1 hg
  exact (hps p hp).builtIn

end Circuit

end QuantumWorkbench
