import QuantumWorkbench.Gate.Basic
import QuantumWorkbench.Storage

/-!
# Circuits

A circuit is a list of gates in the order of their application, over a register of qubits, with the
measurements into a classical register. It keeps the product of the fidelities of its gates, a
placement of the qubits, and which passes simplified it. Every operation checks that qubits
and classical bits lie in their registers, and a refused operation changes nothing.
-/

namespace QuantumWorkbench

/-- The measurement of a qubit into a classical bit. -/
structure Measurement where
  qubit : Nat
  bit : Nat
  deriving DecidableEq, Repr

/-- The basis of every measurement. -/
def Measurement.basis : String := "computational"

/-- A circuit over a register of qubits and a register of classical bits. -/
structure Circuit (α : Type) where
  width : Nat
  bits : Nat
  gates : List (Gate α)
  measurements : List Measurement
  fidelity : α
  mapping : SortedMap Nat Nat
  optimized : Bool
  passes : List String

namespace Circuit

variable {α : Type} [Scalar α]

/-! ## Construction -/

/-- The circuit without gates on the given registers; every qubit is placed at itself. -/
def blank (width bits : Nat) : Circuit α where
  width
  bits
  gates := []
  measurements := []
  fidelity := 1
  mapping := .identity width
  optimized := false
  passes := []

/-- Checks that the placement of the qubits of a register can be stored. -/
def checkStorage (width : Nat) : Except (CircuitError α) Unit :=
  if Storage.holdsPairs width then .ok () else .error (.noStorage width)

/-- The circuit without gates; a register has at least one qubit, and its placement is stored. -/
def new? (width bits : Nat) : Option (Circuit α) :=
  if width = 0 || !Storage.holdsPairs width then none else some (blank width bits)

/-- Checks that the qubits of a gate lie in the register. The first qubit outside is reported. -/
def checkGate (c : Circuit α) (g : Gate α) : Except (CircuitError α) Unit :=
  match g.qubits.find? fun q => c.width ≤ q with
  | some q => .error (.qubitOutOfRange q c.width)
  | none => .ok ()

/-- The circuit with gates after its own. -/
def appendGates (c : Circuit α) (gates : List (Gate α)) : Circuit α :=
  { c with
    gates := c.gates ++ gates
    fidelity := gates.foldl (fun acc g => acc * g.fidelity) c.fidelity }

/-- Appends a gate that fits the register. -/
def addGate (c : Circuit α) (g : Gate α) : Except (CircuitError α) (Circuit α) := do
  c.checkGate g
  return c.appendGates [g]

/-- Appends the gates of a list, or none where one does not fit the register. -/
def addGates (c : Circuit α) (gates : List (Gate α)) : Except (CircuitError α) (Circuit α) := do
  gates.forM c.checkGate
  return c.appendGates gates

/-- Records a measurement. -/
def measure (c : Circuit α) (qubit bit : Nat) : Except (CircuitError α) (Circuit α) :=
  if c.width ≤ qubit then .error (.qubitOutOfRange qubit c.width)
  else if c.bits ≤ bit then .error (.bitOutOfRange bit c.bits)
  else .ok { c with measurements := c.measurements ++ [⟨qubit, bit⟩] }

/-- Measures every qubit into the bit of its number, as far as both registers reach. -/
def measureAll (c : Circuit α) : Circuit α :=
  { c with measurements := c.measurements ++ (List.range (min c.width c.bits)).map fun q => ⟨q, q⟩ }

/-! ## Changes -/

/-- The product of the fidelities of gates, from the first on. -/
def fidelityOf (gates : List (Gate α)) : α := gates.foldl (fun acc g => acc * g.fidelity) 1

/-- The circuit with another list of gates. -/
def withGates (c : Circuit α) (gates : List (Gate α)) : Circuit α :=
  { c with gates, fidelity := fidelityOf gates }

/-- The circuit with another placement of its qubits. -/
def withMapping (c : Circuit α) (mapping : SortedMap Nat Nat) : Circuit α := { c with mapping }

/-- Appends the names that a list does not hold yet. -/
def addNames (names : List String) (more : List String) : List String :=
  more.foldl (fun acc name => if acc.contains name then acc else acc ++ [name]) names

/-- The circuit marked as simplified, with the passes that changed it. -/
def markOptimized (c : Circuit α) (passes : List String) : Circuit α :=
  { c with optimized := true, passes := addNames c.passes passes }

/-- The circuit without its gates and measurements. -/
def clear (c : Circuit α) : Circuit α := { c with gates := [], measurements := [], fidelity := 1 }

end Circuit

end QuantumWorkbench
