import QuantumWorkbench.Qubo.Basic
import QuantumWorkbench.Storage

/-!
# Spin models

The energy `Σ J(i, j) · s i · s j + Σ h i · s i + offset` of spins that are plus or minus one. A
quadratic objective becomes a spin model by putting `(1 - s) / 2` for each bit.
-/

namespace QuantumWorkbench

/-- Couplings of pairs of spins, a field on each spin, and a constant. -/
structure SpinModel (α : Type) where
  couplings : SortedMap (Nat × Nat) α
  fields : Array α
  offset : α

namespace SpinModel

variable {α : Type} [Scalar α]

/-- The model without couplings and fields on a number of spins. -/
def blank (spins : Nat) : SpinModel α := ⟨.empty, Array.replicate spins 0, 0⟩

/-- The model without couplings and fields, unless its fields cannot be stored. -/
def blank? (spins : Nat) : Option (SpinModel α) :=
  if Storage.holdsScalars spins then some (blank spins) else none

/-- The number of spins. -/
def spins (m : SpinModel α) : Nat := m.fields.size

/-- Adds to the coupling stored under a pair. -/
def addCoupling (m : SpinModel α) (pair : Nat × Nat) (x : α) : SpinModel α :=
  { m with couplings := m.couplings.update pair fun old => old.getD 0 + x }

/-- Adds to the couplings of a list of pairs in order. -/
def addCouplings (m : SpinModel α) (terms : List ((Nat × Nat) × α)) : SpinModel α :=
  { m with couplings := m.couplings.updateAll (fun old x => old.getD 0 + x) terms }

theorem addCouplings_eq_foldl (m : SpinModel α) (terms : List ((Nat × Nat) × α)) :
    m.addCouplings terms = terms.foldl (fun m t => m.addCoupling t.1 t.2) m := by
  rw [addCouplings, SortedMap.updateAll_eq_foldl]
  induction terms generalizing m with
  | nil => rfl
  | cons t terms ih => exact ih (m.addCoupling t.1 t.2)

/-- Takes from the field of a spin. -/
def lowerField (m : SpinModel α) (i : Nat) (x : α) : SpinModel α :=
  { m with fields := m.fields.modify i fun h => h - x }

/-- Adds to the constant. -/
def raiseOffset (m : SpinModel α) (x : α) : SpinModel α := { m with offset := m.offset + x }

/-- The model with zero fields on a larger or smaller number of spins. -/
def resize (m : SpinModel α) (spins : Nat) : SpinModel α :=
  { m with fields := m.fields.take spins ++ Array.replicate (spins - m.fields.size) 0 }

/-- An integer as a scalar. -/
def spinValue (s : Int) : α := if s < 0 then -Scalar.num s.natAbs else Scalar.num s.natAbs

/-- The energy of a list of spins; spins beyond it count as zero. -/
def energy (m : SpinModel α) (spins : List Int) : α :=
  let table := spins.toArray
  let spin k : α := spinValue (table.getD k 0)
  let coupling := Scalar.sum (m.couplings.entries.map fun e => e.2 * spin e.1.1 * spin e.1.2)
  let field := Scalar.sum (m.fields.toList.zipIdx.map fun e => e.1 * spin e.2)
  coupling + field + m.offset

/-- The spins of an assignment: zero is plus one, anything else minus one. -/
def ofBits (bits : List Nat) : List Int := bits.map fun b => if b = 0 then 1 else -1

end SpinModel

namespace Qubo

variable {α : Type} [Scalar α]

/-- Adds what one term becomes in terms of spins. -/
def addSpinTerm (m : SpinModel α) (term : (Nat × Nat) × α) : SpinModel α :=
  let ((i, j), x) := term
  if i = j then
    let part := x / Scalar.two
    (m.lowerField i part).raiseOffset part
  else
    let part := x / Scalar.num 4
    (((m.addCoupling (i, j) part).lowerField i part).lowerField j part).raiseOffset part

/-- The spin model with the same energies, unless its fields cannot be stored. -/
def toSpins? (q : Qubo α) : Option (SpinModel α) :=
  (SpinModel.blank? q.width).map fun m => q.terms.entries.foldl addSpinTerm m

end Qubo

end QuantumWorkbench
