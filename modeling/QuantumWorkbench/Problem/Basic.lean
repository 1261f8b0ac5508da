import QuantumWorkbench.Problem.Encoding
import QuantumWorkbench.Problem.Error
import QuantumWorkbench.Problem.Parameters

/-!
# Problems

A problem of some family with its data and its encoding. Data that is incomplete or too large leaves
the problem without an encoding; its objective is then zero everywhere.
-/

namespace QuantumWorkbench

/-- A problem with the encoding of its data. -/
structure Problem (α : Type) where
  kind : ProblemKind
  data : Option (ProblemData α)
  encoding : Option (Encoding α)

namespace Problem

variable {α : Type} [Scalar α]

/-- The problem of data. -/
def ofData (data : ProblemData α) : Problem α := ⟨data.kind, some data, Encoding.ofData? data⟩

/-- The problem of a family and named values. -/
def ofBag (kind : ProblemKind) (bag : ParameterBag α) : Problem α :=
  match ProblemData.ofBag? kind bag with
  | some data => ofData data
  | none => ⟨kind, none, none⟩

/-- The problem of a family and a JSON text of named values. -/
def ofText (kind : ProblemKind) (text : String) : Except (TaskError Float) (Problem Float) :=
  match (Json.read? text).bind ParameterBag.ofDocument? with
  | some bag => .ok (ofBag kind bag)
  | none => .error .malformedProblem

/-! ## Views -/

/-- The limits that a solution may be checked against. -/
def constraints (p : Problem α) : SortedMap String α :=
  match p.data with
  | some data => data.constraints
  | none => .empty

/-- The quadratic objective. -/
def qubo? (p : Problem α) : Option (Qubo α) := p.encoding.map (·.qubo)

/-- The spin model, where the encoding has one. -/
def spins? (p : Problem α) : Option (SpinModel α) := p.encoding.bind (·.spins)

/-- The number of variables, zero without an encoding. -/
def width (p : Problem α) : Nat := (p.qubo?.map (·.width)).getD 0

/-- The objective of an assignment, zero without an encoding. -/
def evaluate (p : Problem α) (bits : List Nat) : α := (p.qubo?.map (·.evaluate bits)).getD 0

end Problem

end QuantumWorkbench
