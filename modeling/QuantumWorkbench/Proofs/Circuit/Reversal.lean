import Mathlib
import QuantumWorkbench.Proofs.Gate.Fidelity
import QuantumWorkbench.Proofs.Gate.Inverse
import QuantumWorkbench.Proofs.Simulation

/-!
# Reversed circuits

The inverses of the gates of a circuit, from the last gate to the first, are gates on the same
register. The main statement says that they undo the circuit on every vector of the register, that
the circuit undoes them, and that a circuit followed by them simulates like no gates at all. Nothing
is lost on the way, not even a phase.
-/

namespace QuantumWorkbench

open Gate Register

namespace Gate

/-- Lists whose operators undo each other undo each other on every vector of a register. -/
theorem actAll_actAll_eq_self {n : ℕ} (hn : n < 64) {gs hs : List (Gate ℝ)}
    (hgs : ∀ g ∈ gs, g.BuiltIn n) (hhs : ∀ g ∈ hs, g.BuiltIn n)
    (hundo : operatorAll hs ∘ₗ operatorAll gs = LinearMap.id) {amplitudes : Array (Amplitude ℝ)}
    (hsize : amplitudes.size = 2 ^ n) : actAll hs (actAll gs amplitudes) = amplitudes := by
  obtain ⟨hsizeForth, hforth⟩ := wave_actAll hn hgs hsize
  obtain ⟨hsizeBack, hback⟩ := wave_actAll hn hhs hsizeForth
  -- a vector is determined by its wave, and on waves the operators cancel
  apply eq_of_wave hsizeBack hsize
  rw [hback, hforth]
  exact LinearMap.congr_fun hundo (wave amplitudes)

end Gate

namespace Circuit

/-- All but custom gates are unitary by their closed forms. -/
theorem Built.unitaryIn {c : Circuit ℝ} (hc : c.Built)
    (hcustom : ∀ g ∈ c.gates, g.kind = .custom → g.IsUnitary) (hn : c.width < 64) :
    ∀ g ∈ c.gates, g.UnitaryIn c.width := by
  intro g hg
  by_cases hk : g.kind = .custom
  · exact ⟨hc g hg, hcustom g hg hk⟩
  · exact ⟨hc g hg, (hc g hg).isUnitary hn hk⟩

/-- **A circuit and its reversal undo each other.** The inverse gates lie in the register. Applied
in reverse order after the gates, or before them, they return every vector of the register exactly
as it was; so the circuit followed by them ends in the state in which it started. The entries of a
vector are counted by a word of 64 bits, whence the bound on the width. -/
theorem inverses_undo {c : Circuit ℝ} (hc : c.Built)
    (hcustom : ∀ g ∈ c.gates, g.kind = .custom → g.IsUnitary) :
    (∀ g ∈ c.gates.reverse.map Gate.inverse, g.BuiltIn c.width) ∧
    (c.width < 64 → ∀ amplitudes : Array (Amplitude ℝ), amplitudes.size = 2 ^ c.width →
      actAll (c.gates.reverse.map Gate.inverse) (actAll c.gates amplitudes) = amplitudes ∧
      actAll c.gates (actAll (c.gates.reverse.map Gate.inverse) amplitudes) = amplitudes) ∧
    ∀ limit, c.width < 64 ∨ limit < 64 →
      (c.appendGates (c.gates.reverse.map Gate.inverse)).state limit =
        (c.withGates []).state limit := by
  have hinverses : ∀ g ∈ c.gates.reverse.map Gate.inverse, g.BuiltIn c.width := by
    intro g hg
    obtain ⟨a, ha, rfl⟩ := List.mem_map.1 hg
    exact (hc a (List.mem_reverse.1 ha)).inverse
  have hunitary (hn : c.width < 64) : ∀ g ∈ c.gates, g.Built ∧ g.width < 64 ∧ g.IsUnitary := by
    intro g hg
    obtain ⟨hbuilt, hu⟩ := hc.unitaryIn hcustom hn g hg
    exact ⟨hbuilt.built, hbuilt.width_lt hn, hu⟩
  refine ⟨hinverses, fun hn amplitudes hsize => ⟨?_, ?_⟩, fun limit hword => ?_⟩
  · apply actAll_actAll_eq_self hn hc hinverses _ hsize
    exact operatorAll_inverse (hunitary hn)
  · apply actAll_actAll_eq_self hn hinverses hc _ hsize
    exact operatorAll_comp_inverse (hunitary hn)
  · by_cases hn : c.width < 64
    · apply state_congr (c := c.withGates [])
      · exact fun g hg => absurd hg List.not_mem_nil
      · exact List.forall_mem_append.2 ⟨hc, hinverses⟩
      · rfl
      · exact (operatorAll_append _ _).trans (operatorAll_inverse (hunitary hn))
      · exact hword
    · -- the register is refused, whatever the gates on it are
      have hrefused : c.simulated limit = false :=
        eq_false_of_ne_true fun h => hn (width_lt_of_simulated hword h)
      rw [state_of_not_simulated (c := c.appendGates _) hrefused,
        state_of_not_simulated (c := c.withGates []) hrefused]
      rfl

/-- A turn without an angle under noise, an exchange with a phase and a time of its own, a gate that
no catalog holds, and a custom matrix that is not its own inverse. -/
noncomputable def assorted : Circuit ℝ :=
  (blank 3 0).appendGates
    [(plain .rx [1]).withNoise (1 / 2),
      ⟨.iswap, [2, 0], SortedMap.empty.insert timeKey 2, none, 1⟩,
      plain (.named "probe") [0, 2],
      ⟨.custom, [1], .empty, some (.ofRows [[0, ⟨-1, 0⟩], [1, 0]]), 1⟩]

theorem built_assorted : assorted.Built := by
  have hexchange : Gate.make .iswap [2, 0] (SortedMap.empty.insert timeKey (2 : ℝ)) =
      .ok ⟨.iswap, [2, 0], SortedMap.empty.insert timeKey 2, none, 1⟩ :=
    make_eq_ok.2 ⟨rfl, FullFidelity.check, rfl, rfl⟩
  simp only [Built, assorted, appendGates, blank, List.nil_append, List.forall_mem_cons,
    List.not_mem_nil, false_implies, implies_true, and_true]
  exact ⟨⟨.withNoise (built_plain rfl rfl) _, by decide⟩, ⟨.make hexchange, by decide⟩,
    ⟨built_plain rfl rfl, by decide⟩, ⟨.ofParts (ofParts_one 1 0 ⟨-1, 0⟩ 1 0), by decide⟩⟩

theorem isUnitary_of_mem_assorted : ∀ g ∈ assorted.gates, g.kind = .custom → g.IsUnitary := by
  simp only [assorted, appendGates, blank, List.nil_append, List.forall_mem_cons,
    List.not_mem_nil, false_implies, implies_true, and_true]
  refine ⟨?rx, ?iswap, ?named, fun _ => ?custom⟩
  case rx | iswap | named => intro hk; cases hk
  have hsign : (⟨-1, 0⟩ : Amplitude ℝ).toComplex = -1 := by
    apply Complex.ext <;> simp
  rw [IsUnitary, Matrix.mem_unitaryGroup_iff]
  show (SquareMatrix.ofRows _).toMatrix 2 * star ((SquareMatrix.ofRows _).toMatrix 2) = 1
  rw [SquareMatrix.toMatrix_ofRows_two]
  ext i j
  fin_cases i <;> fin_cases j <;> simp [Matrix.mul_apply, hsign]

/-- The circuit above and its reversal, on every vector of three qubits. -/
theorem inverses_undo_assorted : assorted.Built ∧
    (∀ g ∈ assorted.gates, g.kind = .custom → g.IsUnitary) ∧
    ∀ amplitudes : Array (Amplitude ℝ), amplitudes.size = 2 ^ 3 →
      actAll (assorted.gates.reverse.map Gate.inverse) (actAll assorted.gates amplitudes) =
        amplitudes ∧
      actAll assorted.gates (actAll (assorted.gates.reverse.map Gate.inverse) amplitudes) =
        amplitudes := by
  obtain ⟨-, hundo, -⟩ := inverses_undo built_assorted isUnitary_of_mem_assorted
  exact ⟨built_assorted, isUnitary_of_mem_assorted, hundo (show 3 < 64 by decide)⟩

end Circuit

end QuantumWorkbench
