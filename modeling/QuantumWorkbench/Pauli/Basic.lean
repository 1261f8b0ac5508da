import QuantumWorkbench.Index
import QuantumWorkbench.Problem.Error
import QuantumWorkbench.SortedMap

/-!
# Hamiltonians

A Hamiltonian is a sum of products of Pauli matrices, each with a coefficient. A product names at
most one matrix for each qubit and lists them by qubit; products that were read from a document are
taken as they stand.
-/

namespace QuantumWorkbench

/-- A Pauli matrix. -/
inductive Pauli where
  | x | y | z
  deriving DecidableEq, Repr

namespace Pauli

/-- The letter of a Pauli matrix. -/
def letter : Pauli → Char
  | x => 'X'
  | y => 'Y'
  | z => 'Z'

/-- The matrix of a letter. -/
def ofLetter? (c : Char) : Option Pauli := [x, y, z].find? fun p => p.letter = c

end Pauli

/-- A Pauli matrix on a qubit. -/
abbrev PauliFactor := Pauli × Nat

/-- A product of Pauli matrices with a coefficient. -/
structure PauliTerm (α : Type) where
  coefficient : α
  factors : List PauliFactor
  deriving DecidableEq

/-- A sum of products of Pauli matrices. -/
structure Hamiltonian (α : Type) where
  terms : List (PauliTerm α)
  deriving DecidableEq

namespace PauliTerm

variable {α : Type}

/-- Enters a factor by its qubit, which must be new. -/
def enter (byQubit : SortedMap Nat Pauli) (factor : PauliFactor) :
    Except (TaskError α) (SortedMap Nat Pauli) :=
  if byQubit.contains factor.2 then .error (.repeatedFactor factor.2)
  else .ok (byQubit.insert factor.2 factor.1)

/-- The product of factors in any order, sorted by qubit; no qubit may appear twice. -/
def make (coefficient : α) (factors : List PauliFactor) : Except (TaskError α) (PauliTerm α) := do
  let byQubit ← factors.foldlM enter SortedMap.empty
  return ⟨coefficient, byQubit.entries.map fun (qubit, pauli) => (pauli, qubit)⟩

/-- Whether the product has no factors and so only shifts the energy. -/
def isConstant (t : PauliTerm α) : Bool := t.factors.isEmpty

/-- The qubit of the last factor. -/
def lastQubit? (t : PauliTerm α) : Option Nat := t.factors.getLast?.map Prod.snd

end PauliTerm

namespace Hamiltonian

variable {α : Type}

/-- One more than the highest last qubit of a product, as an index; zero without any. -/
def qubits (h : Hamiltonian α) : Nat :=
  match h.terms.filterMap PauliTerm.lastQubit? with
  | [] => 0
  | q :: qs => Index.next (qs.foldl max q)

/-- A chain of spins in a transverse field: a coupling of neighbours along the third axis, and a
field on each along the first. -/
def transverseField (n : Nat) (coupling field : α) : Hamiltonian α :=
  ⟨(List.range' 1 (n - 1)).map (fun q => ⟨coupling, [(.z, q - 1), (.z, q)]⟩) ++
    (List.range n).map fun q => ⟨field, [(.x, q)]⟩⟩

end Hamiltonian

end QuantumWorkbench
