import Mathlib
import QuantumWorkbench.Algorithm.Feature
import QuantumWorkbench.Algorithm.Fourier
import QuantumWorkbench.Pauli.Evolution
import QuantumWorkbench.Proofs.Algorithm.PhaseFlip
import QuantumWorkbench.Proofs.Circuit.Appending

/-!
# Families on circuits that are there already

Phase flips, controlled phases, steps of evolution and features are appended to a circuit. Their
arguments are looked at before any gate is placed, but not the register: it is checked gate by gate,
so a family that is not accepted can leave its first gates behind.
-/

namespace QuantumWorkbench

open Gate (FullFidelity)

variable {α : Type} [Scalar α]

/-- The families that are appended to a circuit. -/
inductive Family (α : Type) where
  /-- A phase flip of the all-ones state of some qubits, with work qubits. -/
  | phaseFlip (qubits work : List ℕ)
  /-- A phase on the state where both qubits are one. -/
  | controlledPhase (control target : ℕ) (angle : α)
  /-- A step of evolution under a Hamiltonian. -/
  | step (h : Hamiltonian α) (dt : α)
  /-- Features on the qubits of their numbers. -/
  | loading (encoding : FeatureEncoding) (features : List α)

namespace Family

/-- The gates of a family in their order, unless its arguments are rejected. -/
def placements : Family α → Except (TaskError α) (List (Placement α))
  | phaseFlip qubits work => Amplification.phaseFlip qubits work
  | controlledPhase control target angle => .ok (Fourier.controlledPhase control target angle)
  | step h dt => .ok (h.stepGates dt)
  | loading encoding features => encoding.placements features

/-! ## Rejected arguments -/

/-- Why the arguments of a family are rejected, whatever circuit it is meant for. -/
inductive Rejects : Family α → TaskError α → Prop where
  /-- There is nothing to flip the phase on. -/
  | noControls (work : List ℕ) : Rejects (phaseFlip [] work) .noControls
  /-- A ladder of negations needs more work qubits than there are. -/
  | fewWorkQubits {qubits work : List ℕ}
      (h : work.length < Amplification.workQubits qubits.length) :
      Rejects (phaseFlip qubits work) (.fewWorkQubits qubits.length
        (Amplification.workQubits qubits.length) work.length)
  /-- The first feature that is not finite is reported. -/
  | badFeature {encoding : FeatureEncoding} {xs : List α} {x : α}
      (h : xs.find? (fun x => !Scalar.isFinite x) = some x) :
      Rejects (loading encoding xs) (.badFeature x)
  /-- Features of length zero have no shares. -/
  | zeroFeatures {xs : List α} (hfinite : xs.find? (fun x => !Scalar.isFinite x) = none)
      (h : (Scalar.sqrt (Scalar.sum (xs.map fun x => x * x)) == 0) = true) :
      Rejects (loading .amplitude xs) .zeroFeatures

theorem phaseFlip_eq_error_iff {qubits work : List ℕ} {e : TaskError α} :
    Amplification.phaseFlip qubits work = .error e ↔ (phaseFlip qubits work).Rejects e := by
  constructor
  · intro h
    -- one or two qubits are flipped without work qubits, so only longer lists can lack them
    rcases qubits with - | ⟨a, - | ⟨b, - | ⟨d, rest⟩⟩⟩
    · cases h
      exact .noControls work
    · cases h
    · cases h
    · unfold Amplification.phaseFlip at h
      dsimp only at h
      split at h
      · next hfew =>
        cases h
        exact .fewWorkQubits hfew
      · cases h
  · intro h
    cases h with
    | noControls => rfl
    | fewWorkQubits hfew => exact Amplification.phaseFlip_of_few hfew

theorem loading_eq_error_iff {encoding : FeatureEncoding} {xs : List α} {e : TaskError α} :
    encoding.placements xs = .error e ↔ (loading encoding xs).Rejects e := by
  unfold FeatureEncoding.placements
  constructor
  · intro h
    split at h
    · next x hx =>
      cases h
      exact .badFeature hx
    · next hfinite =>
      split at h
      · cases h
      · dsimp only at h
        split at h
        · next hzero =>
          cases h
          exact .zeroFeatures hfinite hzero
        · cases h
      · cases h
  · intro h
    cases h with
    | badFeature hx => rw [hx]
    | zeroFeatures hfinite hzero =>
      rw [hfinite]
      exact if_pos hzero

/-- Only phase flips and features look at their arguments. -/
theorem placements_eq_error_iff {family : Family α} {e : TaskError α} :
    family.placements = .error e ↔ family.Rejects e := by
  cases family with
  | phaseFlip qubits work => exact phaseFlip_eq_error_iff
  | controlledPhase control target angle => exact ⟨nofun, nofun⟩
  | step h dt => exact ⟨nofun, nofun⟩
  | loading encoding xs => exact loading_eq_error_iff

end Family

namespace Circuit

variable {c c' : Circuit α} {e : TaskError α}

/-! ## Broken families -/

/-- Up to two qubits a phase flip has one gate, so it leaves nothing behind. -/
theorem Breaks.eq_self_of_phaseFlip {qubits work : List ℕ} (hlen : qubits.length ≤ 2)
    (h : c.Breaks (Family.phaseFlip qubits work).placements c' e) : c' = c := by
  rcases qubits with - | ⟨a, - | ⟨b, - | ⟨d, rest⟩⟩⟩
  · cases h with
    | rejected => rfl
    | refused hfamily => cases hfamily
  · exact Breaks.eq_self_of_single h
  · exact Breaks.eq_self_of_single h
  · exact absurd hlen (by simp)

/-- The first gate of a controlled phase turns the target. -/
theorem Breaks.controlledPhase_eq_self_iff [FullFidelity α] {control target : ℕ} {angle : α}
    (h : c.Breaks (Family.controlledPhase control target angle).placements c' e) :
    c' = c ↔ c.width ≤ target := by
  rw [Breaks.eq_self_iff h, ← not_iff_not, not_le]
  constructor
  · -- a gate that is not refused is placed, so its qubit lies in the register
    intro hnone
    cases hgate : c.gateFor (.turn .rz target (Scalar.half angle)) with
    | error fault => exact absurd ⟨fault, hgate⟩ hnone
    | ok g => exact (gateFor_eq_ok_iff.1 hgate).2 target (List.mem_singleton_self target)
  · rintro htarget ⟨fault, hfault⟩
    have hfits := Placement.fitsIn_turn (k := .rz) rfl htarget (Scalar.half angle)
    exact nomatch hfault.symm.trans (gateFor_of_fitsIn hfits)

/-- **How a family that is not accepted leaves a circuit.** Where its arguments are rejected, the
circuit stays as it was. Otherwise some gate of the family is the first one refused, in place as
well, and exactly the gates before it come after those of the circuit, with their fidelities
counted; so the circuit stays as it was exactly where the first gate is the one refused. A phase flip
of at most two qubits always leaves it, and a controlled phase where the target is not in the
register. -/
theorem append_family [FullFidelity α] {family : Family α}
    (h : c.append family.placements = (c', some e)) :
    (family.Rejects e ∧ c' = c ∨
      ∃ placed p rest gates fault, family.placements = .ok (placed ++ p :: rest) ∧
        c.Accepts placed gates ∧ c.gateFor p = .error fault ∧ e = .circuit fault ∧
        c' = c.appendGates gates ∧ (c' = c ↔ placed = []) ∧
        (Change.appendEach (placed ++ p :: rest)).exec c = (.error fault, c')) ∧
    (∀ qubits work, family = .phaseFlip qubits work → qubits.length ≤ 2 → c' = c) ∧
    (∀ control target angle, family = .controlledPhase control target angle →
      (c' = c ↔ c.width ≤ target)) := by
  have hbreaks := append_eq_some_iff.1 h
  refine ⟨?_, ?_, ?_⟩
  · cases hbreaks with
    | rejected hrejected => exact .inl ⟨Family.placements_eq_error_iff.1 hrejected, rfl⟩
    | @refused placed rest p gates fault hfamily hplaced hfault =>
      have hextend : c.extend (placed ++ p :: rest) = (c.appendGates gates, some fault) := by
        rw [extend, gatesFor_eq_some_iff.2 ⟨placed, p, rest, rfl, hplaced, hfault⟩]
      refine .inr ⟨placed, p, rest, gates, fault, hfamily, hplaced, hfault, rfl, rfl, ?_, ?_⟩
      · rw [appendGates_eq_self_iff, hplaced.eq_nil_iff]
      · rw [Change.exec_appendEach, hextend]
        rfl
  · rintro qubits work rfl hlen
    exact hbreaks.eq_self_of_phaseFlip hlen
  · rintro control target angle rfl
    exact hbreaks.controlledPhase_eq_self_iff

/-- A phase flip of four qubits whose second work qubit is not in the register: the first conjunction
stays. -/
theorem append_family_conjunction :
    let c : Circuit Float := blank 6 0
    let c' := c.appendGates [Gate.plain .toffoli [0, 1, 4]]
    c.append (Family.phaseFlip [0, 1, 2, 3] [4, 9]).placements =
        (c', some (.circuit (.qubitOutOfRange 9 6))) ∧
      c' ≠ c ∧ ∃ ps, Amplification.phaseFlip [0, 1, 2, 3] [4, 9] = .ok ps ∧
        (Change.appendEach ps).exec c = (.error (.qubitOutOfRange 9 6), c') := by
  intro c c'
  have happend : c.append (Family.phaseFlip [0, 1, 2, 3] [4, 9]).placements =
      (c', some (.circuit (.qubitOutOfRange 9 6))) := rfl
  obtain ⟨⟨hrejects, -⟩ | ⟨placed, p, rest, gates, fault, hps, -, -, hfault, -, -, hexec⟩, -⟩ :=
    append_family happend
  · -- there are as many work qubits as are needed
    cases hrejects
  · cases hfault
    exact ⟨happend, by simp [c'], _, hps, hexec⟩

/-- A controlled phase with a control outside the register is refused, but the first turn of the
target has been placed. -/
theorem controlledPhase_leaves_turn :
    let c : Circuit Float := blank 2 2
    let family := Family.controlledPhase 5 0 (1 : Float)
    (c.append family.placements).2 = some (.circuit (.qubitOutOfRange 5 2)) ∧
      (c.append family.placements).1.gates.length = 1 ∧ (c.append family.placements).1 ≠ c := by
  intro c family
  have hlength : (c.append family.placements).1.gates.length = 1 := rfl
  refine ⟨rfl, hlength, fun h => ?_⟩
  rw [h] at hlength
  cases hlength

end Circuit

end QuantumWorkbench
