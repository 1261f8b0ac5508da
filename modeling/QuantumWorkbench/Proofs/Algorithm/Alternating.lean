import Mathlib
import QuantumWorkbench.Algorithm.Alternating
import QuantumWorkbench.Proofs.Circuit.Placement
import QuantumWorkbench.Proofs.Gate.Diagonal
import QuantumWorkbench.Proofs.Qubo.Value

/-!
# Phases of cost layers

A cost layer is diagonal: a turn about the third axis looks at the bit of its variable, and between
two controlled negations at the parity of its pair. So every basis index is multiplied by a phase,
which is known in closed form. It grows with what the turns count, where the evolution under the
objective falls with its value, so the layer is that evolution exactly where the two phases differ
by whole turns.
-/

namespace QuantumWorkbench

open Gate Placement Register
open Complex (I)

namespace Alternating

/-! ## What the turns count -/

/-- What the turn of a pair looks at: the bit of a variable, or whether the bits of two differ. -/
def isTurned (x : ℕ) (pair : ℕ × ℕ) : Bool :=
  if pair.1 = pair.2 then x.testBit pair.1 else x.testBit pair.1 ^^ x.testBit pair.2

/-- The sum of the entries whose turn finds a one. -/
noncomputable def turned (q : Qubo ℝ) (x : ℕ) : ℝ :=
  q.terms.weighted fun pair => if isTurned x pair then 1 else 0

/-- The sum of all entries. -/
noncomputable def total (q : Qubo ℝ) : ℝ := q.terms.weighted fun _ => 1

/-- The phase that a cost layer gives to a basis index. -/
noncomputable def phase (q : Qubo ℝ) (gamma : ℝ) (x : ℕ) : ℂ :=
  Complex.exp ((gamma * (turned q x - total q / 2) : ℝ) * I)

/-! ## One term -/

theorem effect_termGates (gamma : ℝ) (term : (ℕ × ℕ) × ℝ) :
    effect (termGates gamma term) =
      phases fun x => spin (gamma * term.2) (isTurned x term.1) := by
  obtain ⟨⟨i, j⟩, c⟩ := term
  by_cases hij : i = j
  · subst hij
    simp only [termGates, isTurned, if_true]
    exact (effect_turn rfl rfl i _).trans (turnAt_z i _)
  · -- the negations bring the parity of the pair to its second qubit
    have hnetwork : effect (termGates gamma ((i, j), c)) = (plain .cnot [i, j]).operator ∘ₗ
        turnAt .z j (gamma * c) ∘ₗ (plain .cnot [i, j]).operator := by
      rw [termGates, if_neg hij, effect_cons, effect_cons, effect_of, made_of,
        operator_made_turn (k := .rz) rfl rfl, LinearMap.comp_assoc]
    have hparity (x : ℕ) : (flipIf (·.testBit i) j x).testBit j = isTurned x (i, j) := by
      rw [testBit_flipIf, if_pos rfl, isTurned, if_neg hij, Bool.xor_comm]
    rw [hnetwork, turnAt_z, operator_cnot_phases_cnot hij]
    simp only [hparity]

theorem fitsIn_termGates {width : ℕ} {term : (ℕ × ℕ) × ℝ}
    (hterm : term.1.1 < width ∧ term.1.2 < width) (gamma : ℝ) :
    ∀ p ∈ termGates gamma term, p.FitsIn width := by
  obtain ⟨⟨i, j⟩, c⟩ := term
  obtain ⟨hi, hj⟩ : i < width ∧ j < width := hterm
  intro p hp
  by_cases hij : i = j
  · rw [termGates, if_pos hij, List.mem_singleton] at hp
    exact hp ▸ fitsIn_turn rfl hi _
  · simp only [termGates, if_neg hij, List.mem_cons, List.not_mem_nil, or_false] at hp
    rcases hp with rfl | rfl | rfl
    · exact fitsIn_two rfl hij hi hj
    · exact fitsIn_turn rfl hj _
    · exact fitsIn_two rfl hij hi hj

/-! ## All terms -/

/-- An objective with one variable. -/
noncomputable def single : Qubo ℝ := (Qubo.blank 1).add 0 0 1

end Alternating

end QuantumWorkbench
