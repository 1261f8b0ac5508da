import Mathlib
import QuantumWorkbench.Proofs.Exact
import QuantumWorkbench.Proofs.Gate.Construction
import QuantumWorkbench.Scalar.Double

/-!
# Fidelities of constructed gates

A fidelity was checked when it was set, and noise scales it by a factor that its level leaves. Over
the real numbers such products stay in the range that the constructors ask for.
-/

namespace QuantumWorkbench

namespace Gate

/-! ## Over any scalars -/

/-- The fidelity of a constructed gate is one or was checked, and noise may have scaled it. -/
theorem Built.fidelity_of {α : Type} [Scalar α] {P : α → Prop} (hone : P 1)
    (hcheck : ∀ x, checkFidelity x = .ok () → P x)
    (hnoise : ∀ (g : Gate α) level, P g.fidelity → P (g.withNoise level).fidelity) {g : Gate α}
    (hg : g.Built) : P g.fidelity := by
  induction hg with
  | make h =>
    obtain ⟨-, hfidelity, -, rfl⟩ := make_eq_ok.1 h
    exact hcheck _ hfidelity
  | ofParts h =>
    obtain ⟨g, hg, h⟩ := bind_eq_ok.1 h
    cases h
    obtain ⟨-, hfidelity, -, rfl⟩ := make_eq_ok.1 hg
    exact hcheck _ hfidelity
  | withFidelity _ h _ =>
    obtain ⟨hfidelity, rfl⟩ := withFidelity_eq_ok.1 h
    exact hcheck _ hfidelity
  | withNoise _ level ih => exact hnoise _ level ih
  | @inverse g _ ih =>
    unfold Gate.inverse
    split
    · exact ih
    · split <;> exact ih
  | expansion hg h ih =>
    -- a gate without a rule stays, and the gates of a rule are made anew
    rcases plainOn_expansion hg.wellFormed with hself | hplain
    · rw [hself, List.mem_singleton] at h
      exact h ▸ ih
    · rw [(hplain _ h).plain]
      exact hone

/-- The largest level of noise that is taken into account, just below one. -/
def largestLevel {α : Type} [Scalar α] : α := 1 - Scalar.unitGap

/-- The factor that a noise level leaves of a fidelity. -/
def noiseFactor {α : Type} [Scalar α] (level : α) : α :=
  1 - (if level < 0 then 0 else if largestLevel < level then largestLevel else level)

theorem withNoise_fidelity {α : Type} [Scalar α] (g : Gate α) (level : α) :
    (g.withNoise level).fidelity = g.fidelity * noiseFactor level := rfl

/-- Scalars whose one is accepted as a fidelity, so that gates can be made without giving any. -/
class FullFidelity (α : Type) [Scalar α] : Prop where
  check : checkFidelity (1 : α) = .ok ()

/-! ## Over the real numbers -/

theorem checkFidelity_real {x : ℝ} : checkFidelity x = .ok () ↔ 0 < x ∧ x ≤ 1 := by
  unfold checkFidelity
  split
  · next h => exact ⟨fun _ => h, fun _ => rfl⟩
  · next h => exact ⟨fun h' => (by cases h'), fun h' => absurd h' h⟩

instance : FullFidelity ℝ := ⟨checkFidelity_real.2 ⟨one_pos, le_rfl⟩⟩

instance : FullFidelity Float := ⟨if_pos (by decide +kernel)⟩

/-- A gate of the catalog on qubits that fit its kind can be made. -/
theorem make_plain {α : Type} [Scalar α] [FullFidelity α] {kind : GateKind} {qubits : List ℕ}
    (hqubits : checkQubits (α := α) kind qubits = .ok ())
    (hstorage : kind.hasStorage qubits.length = true) :
    Gate.make kind qubits .empty = .ok (Gate.plain kind qubits : Gate α) :=
  make_eq_ok.2 ⟨hqubits, FullFidelity.check, by rw [checkStorage, if_pos hstorage], rfl⟩

/-- A rotation of any qubit can be made by any angle. -/
theorem exists_rotation {α : Type} [Scalar α] [FullFidelity α] (kind : GateKind) (q : ℕ) (angle : α)
    (hr : kind.isRotation = true) : ∃ g, Gate.rotation kind q angle = .ok g := by
  cases kind <;> simp [GateKind.isRotation, GateKind.angleKey] at hr
  all_goals exact ⟨_, make_eq_ok.2 ⟨rfl, FullFidelity.check, rfl, rfl⟩⟩

/-- A gate of one qubit from the parts of its four entries. -/
theorem ofParts_one {α : Type} [Scalar α] [FullFidelity α] (q : ℕ) (a b c d : Amplitude α) :
    ofParts [q] [a.re, b.re, c.re, d.re] [a.im, b.im, c.im, d.im] =
      .ok ⟨.custom, [q], .empty, some (.ofRows [[a, b], [c, d]]), 1⟩ := by
  have hside : SquareMatrix.sideOf [a.re, b.re, c.re, d.re].length = 2 := by
    simp [SquareMatrix.sideOf, Nat.sqrt_eq 2]
  have hparts : SquareMatrix.ofParts? [a.re, b.re, c.re, d.re] [a.im, b.im, c.im, d.im]
      [q].length = some (.ofRows [[a, b], [c, d]]) := by
    rw [SquareMatrix.ofParts?, hside]
    rfl
  have hmake : Gate.make .custom [q] .empty = .ok ⟨.custom, [q], .empty, none, (1 : α)⟩ :=
    make_eq_ok.2 ⟨rfl, FullFidelity.check, rfl, rfl⟩
  exact bind_eq_ok.2 ⟨_, hmake, by rw [hparts]; rfl⟩

theorem built_plain {kind : GateKind} {qubits : List ℕ}
    (hqubits : checkQubits (α := ℝ) kind qubits = .ok ())
    (hstorage : kind.hasStorage qubits.length = true) :
    (Gate.plain kind qubits : Gate ℝ).Built := .make (make_plain hqubits hstorage)

theorem noiseFactor_real (level : ℝ) : 0 < noiseFactor level ∧ noiseFactor level ≤ 1 := by
  have hgap : (0 : ℝ) < Scalar.unitGap ∧ (Scalar.unitGap : ℝ) ≤ 1 := by
    rw [Scalar.unitGap, Scalar.num_real, Scalar.num_real,
      show (1 <<< 52 : ℕ) = 4503599627370496 from rfl]
    norm_num
  have hlevel : ∀ l : ℝ, 0 ≤ l → l ≤ largestLevel → 0 < 1 - l ∧ 1 - l ≤ 1 := by
    unfold largestLevel
    exact fun l hl hl' => ⟨by linarith, by linarith⟩
  have hlargest : (0 : ℝ) ≤ largestLevel := sub_nonneg.2 hgap.2
  refine hlevel _ ?_ ?_
  all_goals
    split
    · linarith
    · split <;> linarith

/-- What a noise level leaves of a fidelity stays in its range. -/
theorem fidelity_withNoise {g : Gate ℝ} (hg : 0 < g.fidelity ∧ g.fidelity ≤ 1) (level : ℝ) :
    0 < (g.withNoise level).fidelity ∧ (g.withNoise level).fidelity ≤ 1 := by
  obtain ⟨hpos, hle⟩ := noiseFactor_real level
  exact ⟨mul_pos hg.1 hpos, mul_le_one₀ hg.2 hpos.le hle⟩

/-- The fidelity of a constructed gate lies above zero and at most at one. -/
theorem Built.fidelity {g : Gate ℝ} (hg : g.Built) : 0 < g.fidelity ∧ g.fidelity ≤ 1 :=
  hg.fidelity_of ⟨one_pos, le_rfl⟩ (fun _ => checkFidelity_real.1) fun _ level h =>
    fidelity_withNoise h level

end Gate

end QuantumWorkbench
