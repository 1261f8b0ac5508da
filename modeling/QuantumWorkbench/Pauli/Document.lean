import QuantumWorkbench.Json.Decode
import QuantumWorkbench.Pauli.Basic

/-!
# Hamiltonians as JSON documents

A Hamiltonian is a record of its products, a product a record of its coefficient and its factors,
and a factor a pair of a letter and a qubit. A letter may also be written as the one key of an
object whose value is null.
-/

namespace QuantumWorkbench

/-- The Pauli matrix of a text of one letter. -/
def Pauli.ofString? (s : String) : Option Pauli :=
  match s.toList with
  | [c] => Pauli.ofLetter? c
  | _ => none

/-- Reads a Pauli matrix. -/
def Pauli.ofDocument? : Json.Value → Option Pauli
  | .text raw => (Json.unescape? raw).bind Pauli.ofString?
  | .object [(key, .null)] => (Json.unescape? key).bind Pauli.ofString?
  | _ => none

/-- Reads a factor. -/
def PauliFactor.ofDocument? : Json.Value → Option PauliFactor
  | .list [pauli, qubit] => do some (← Pauli.ofDocument? pauli, ← qubit.index?)
  | _ => none

/-- Reads a product; its factors are taken in the order given. -/
def PauliTerm.ofDocument? (v : Json.Value) : Option (PauliTerm Float) := do
  let [coefficient, factors] ← v.record? ["coefficient", "factors"] | none
  some ⟨← (← coefficient).double?, ← (← factors).listOf? PauliFactor.ofDocument?⟩

/-- Reads a sum. -/
def Hamiltonian.ofDocument? (v : Json.Value) : Option (Hamiltonian Float) := do
  let [terms] ← v.record? ["terms"] | none
  some ⟨← (← terms).listOf? PauliTerm.ofDocument?⟩

end QuantumWorkbench
