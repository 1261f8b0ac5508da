import Mathlib
import QuantumWorkbench.Proofs.Gate.Operator
import QuantumWorkbench.Proofs.Register.Renaming

/-!
# Gates on renamed qubits

A gate with its qubits renamed keeps its matrix. The constructors, inversion and expansion do not
look at the names of qubits, so a renamed gate is again one that the constructors make.
-/

namespace QuantumWorkbench.Gate

variable {α : Type} [Scalar α]

/-- The gate with its qubits renamed. -/
def rename (f : Nat → Nat) (g : Gate α) : Gate α := { g with qubits := g.qubits.map f }

omit [Scalar α] in
@[simp] theorem rename_id (g : Gate α) : g.rename id = g := by
  rw [rename, List.map_id]

@[simp] theorem matrix_rename (f : Nat → Nat) (g : Gate α) : (g.rename f).matrix = g.matrix := by
  simp only [matrix, width, rename, List.length_map]

/-! ## Construction -/

omit [Scalar α] in
theorem checkQubits_map {f : Nat → Nat} (hf : Function.Injective f) {kind : GateKind}
    {qubits : List Nat} (h : checkQubits (α := α) kind qubits = .ok ()) :
    checkQubits (α := α) kind (qubits.map f) = .ok () := by
  obtain ⟨hnodup, hne, harity⟩ := checkQubits_eq_ok h
  have hrepeated : Qubit.firstRepeated (qubits.map f) = none :=
    Qubit.firstRepeated_eq_none_iff.2 (hnodup.map hf)
  unfold checkQubits
  dsimp only
  cases hk : kind.arity with
  | none => simp [hne, hrepeated]
  | some n => simp [harity n hk, hrepeated]

theorem make_map {f : Nat → Nat} (hf : Function.Injective f) {kind : GateKind} {qubits : List Nat}
    {parameters : Parameters α} {g : Gate α} (h : Gate.make kind qubits parameters = .ok g) :
    Gate.make kind (qubits.map f) parameters = .ok (g.rename f) := by
  obtain ⟨hqubits, hfidelity, hstorage, rfl⟩ := make_eq_ok.1 h
  exact make_eq_ok.2 ⟨checkQubits_map hf hqubits, hfidelity, by rwa [List.length_map], rfl⟩

theorem inverse_rename (f : Nat → Nat) (g : Gate α) :
    (g.rename f).inverse = g.inverse.rename f := by
  have hkind : (g.rename f).kind = g.kind := rfl
  unfold inverse
  rw [hkind, matrix_rename]
  cases g.kind.angleKey with
  | some key => rfl
  | none =>
    cases g.kind.adjoint with
    | some kind => rfl
    | none => rfl

theorem expansion_rename (f : Nat → Nat) (g : Gate α) :
    (g.rename f).expansion = g.expansion.map (rename f) := by
  obtain ⟨kind, qubits, parameters, ownMatrix, fidelity⟩ := g
  cases kind with
  | toffoli | cz | swap | fredkin =>
    obtain _ | ⟨a, _ | ⟨b, _ | ⟨c, _ | ⟨d, qubits⟩⟩⟩⟩ := qubits <;> rfl
  | _ => rfl

/-- **Renaming keeps construction**. -/
theorem Built.rename {f : Nat → Nat} (hf : Function.Injective f) {g : Gate α} (hg : g.Built) :
    (g.rename f).Built := by
  induction hg with
  | make h => exact .make (make_map hf h)
  | @ofParts qubits re im g h =>
    obtain ⟨g, hg, h⟩ := bind_eq_ok.1 h
    cases h
    -- the parts are checked against the number of qubits, which renaming keeps
    have hparts : Gate.ofParts (qubits.map f) re im = .ok
        { g.rename f with ownMatrix := SquareMatrix.ofParts? re im qubits.length } :=
      bind_eq_ok.2 ⟨g.rename f, make_map hf hg, by rw [List.length_map]; rfl⟩
    exact .ofParts hparts
  | withFidelity _ h ih =>
    obtain ⟨hfidelity, rfl⟩ := withFidelity_eq_ok.1 h
    exact .withFidelity ih (withFidelity_eq_ok.2 ⟨hfidelity, rfl⟩)
  | withNoise _ level ih => exact .withNoise ih level
  | inverse _ ih =>
    rw [← inverse_rename]
    exact .inverse ih
  | expansion _ h ih =>
    refine .expansion ih ?_
    rw [expansion_rename]
    exact List.mem_map_of_mem h

/-! ## Operators -/

open Register in
/-- **A renamed gate** does what the gate does, on waves whose indices are moved. -/
theorem operator_rename {f : ℕ → ℕ} {σ : Equiv.Perm ℕ} (hf : Carries f σ) (g : Gate ℝ) :
    g.operator ∘ₗ LinearMap.funLeft ℂ ℂ f =
      LinearMap.funLeft ℂ ℂ f ∘ₗ (g.rename σ).operator := by
  have hqubits : (g.rename σ).qubits = g.qubits.map σ := rfl
  rw [operator_eq hqubits, matrix_rename]
  exact hf.applyAt_map g.qubits fun i j => (g.matrix.entry i j).toComplex

end QuantumWorkbench.Gate
