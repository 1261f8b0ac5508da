/-!
# Qubits

A qubit is the index of a bit: qubit `q` of a register is bit `q` of a basis index, so the first
qubit is the least significant.
-/

namespace QuantumWorkbench.Qubit

/-- The 64-bit word with only the bit of a qubit set; the shift counts modulo the word. -/
def mask (q : Nat) : Nat := 1 <<< (q % 64)

/-- Whether the bit of a qubit is set in a basis index; the shift counts modulo the word. -/
def isSet (index q : Nat) : Bool := index.testBit (q % 64)

/-- The number of basis states of a register, the power of two that a shift in a 64-bit word
gives. -/
def dimension (width : Nat) : Nat := 1 <<< (width % 64)

theorem mask_of_lt {q : Nat} (h : q < 64) : mask q = 1 <<< q := by
  rw [mask, Nat.mod_eq_of_lt h]

theorem isSet_of_lt (index : Nat) {q : Nat} (h : q < 64) : isSet index q = index.testBit q := by
  rw [isSet, Nat.mod_eq_of_lt h]

theorem dimension_of_lt {width : Nat} (h : width < 64) : dimension width = Nat.pow 2 width := by
  rw [dimension, Nat.mod_eq_of_lt h, Nat.one_shiftLeft]
  rfl

/-- The label of a qubit. -/
def label (q : Nat) : String := "q" ++ toString q

/-- The first member of a list that occurs in it again. -/
def firstRepeated : List Nat → Option Nat
  | [] => none
  | q :: qs => if qs.contains q then some q else firstRepeated qs

theorem firstRepeated_eq_none_iff {qs : List Nat} : firstRepeated qs = none ↔ qs.Nodup := by
  induction qs with
  | nil => simp [firstRepeated]
  | cons q qs ih =>
    by_cases h : q ∈ qs
    · simp [firstRepeated, h]
    · simp [firstRepeated, h, ih]

end QuantumWorkbench.Qubit
