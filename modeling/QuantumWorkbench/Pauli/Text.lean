import QuantumWorkbench.Pauli.Basic
import QuantumWorkbench.Decimal.Reading
import QuantumWorkbench.Text.Blank

/-!
# Hamiltonians as text

Products are joined by `+` and factors by `*`, as in `0.5*X0 + Z0*Z1`. A factor is a number or a
Pauli letter with a qubit; the numbers of a product are multiplied. White space around products and
factors does not matter.
-/

namespace QuantumWorkbench

variable {α : Type}

/-! ## Writing -/

/-- The text of a factor. -/
def PauliFactor.text (f : PauliFactor) : String := String.ofList [f.1.letter] ++ toString f.2

/-- The text of a product: the coefficient, then the factors. -/
def PauliTerm.text [NumberText α] (t : PauliTerm α) : String :=
  NumberText.shortest t.coefficient ++ String.join (t.factors.map fun f => "*" ++ f.text)

/-- The text of a sum. -/
def Hamiltonian.text [NumberText α] (h : Hamiltonian α) : String :=
  String.intercalate " + " (h.terms.map PauliTerm.text)

/-! ## Reading -/

/-- An index in plain digits. -/
def Pauli.index? (cs : List Char) : Option Nat :=
  if cs.isEmpty || !cs.all Char.isDigit then none else Index.checked? (Decimal.natOfDigits cs)

/-- A Pauli letter in either case with a qubit. -/
def Pauli.factor? : List Char → Option PauliFactor
  | c :: cs => do some (← Pauli.ofLetter? c.toUpper, ← Pauli.index? cs)
  | [] => none

variable [Scalar α] [NumberText α]

/-- Reads one factor onto a product so far: numbers are multiplied, Pauli factors collected. -/
def PauliTerm.readFactor (sofar : α × List PauliFactor) (cs : List Char) :
    Except (TaskError α) (α × List PauliFactor) :=
  let text := String.ofList cs
  match (NumberText.read? text : Option α) with
  | some x => .ok (sofar.1 * x, sofar.2)
  | none =>
    match Pauli.factor? cs with
    | some f => .ok (sofar.1, sofar.2 ++ [f])
    | none => .error (.badFactor text)

/-- Reads a product that is not blank. -/
def PauliTerm.read (cs : List Char) : Except (TaskError α) (PauliTerm α) := do
  let parts := (Text.splitAt '*' cs).map Text.trimChars
  let (coefficient, factors) ← parts.foldlM PauliTerm.readFactor (1, [])
  PauliTerm.make coefficient factors

/-- Reads a sum. -/
def Hamiltonian.read (text : String) : Except (TaskError α) (Hamiltonian α) := do
  let terms ← (Text.splitAt '+' text.toList).mapM fun part =>
    let cs := Text.trimChars part
    if cs.isEmpty then .error (.emptyTerm text) else PauliTerm.read cs
  return ⟨terms⟩

end QuantumWorkbench
