import QuantumWorkbench.Problem.Basic
import QuantumWorkbench.State.Sampling

/-!
# Solutions

An assignment with its objective, and how assignments are written as measured strings: the last
variable first, so that variable zero is the last character.
-/

namespace QuantumWorkbench

/-- An assignment of bits to variables with its objective. -/
structure Solution (α : Type) where
  bits : List Nat
  energy : α

namespace Solution

/-- The string of an assignment, the last variable first. -/
def bitstring {α : Type} (s : Solution α) : String :=
  String.ofList (s.bits.reverse.map fun b => if b = 0 then '0' else '1')

/-- The bit of a character. -/
def bitOfChar? (c : Char) : Option Nat :=
  if c = '0' then some 0 else if c = '1' then some 1 else none

/-- The assignment that a string of zeros and ones stands for. -/
def bitsOfString? (text : String) : Option (List Nat) := text.toList.reverse.mapM bitOfChar?

/-- The bits of an index, the lowest first. -/
def bitsOfIndex (index : Nat) : Nat → List Nat
  | 0 => []
  | width + 1 => index % 2 :: bitsOfIndex (index / 2) width

theorem length_bitsOfIndex (index width : Nat) : (bitsOfIndex index width).length = width := by
  induction width generalizing index with
  | zero => rfl
  | succ width ih => rw [bitsOfIndex, List.length_cons, ih]

theorem getElem?_bitsOfIndex (index width k : Nat) :
    (bitsOfIndex index width)[k]? = if k < width then some ((index >>> k) % 2) else none := by
  induction width generalizing index k with
  | zero => simp [bitsOfIndex]
  | succ width ih =>
    cases k with
    | zero => simp [bitsOfIndex]
    | succ k => simp [bitsOfIndex, ih, Nat.shiftRight_succ_inside]

end Solution

end QuantumWorkbench
