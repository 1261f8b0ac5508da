import QuantumWorkbench.Circuit.Placement
import QuantumWorkbench.Problem.Error

/-!
# Building circuits from placements

The two ways in which a circuit family is put on a register: onto a circuit that is there already,
which keeps what was placed before a fault, and onto a fresh circuit, which exists only as a whole.
-/

namespace QuantumWorkbench.Circuit

variable {α : Type} [Scalar α]

/-- Appends a family to a circuit: the circuit as it then stands, and the fault, if there is one. A
family that cannot be described appends nothing. -/
def append (c : Circuit α) (family : Except (TaskError α) (List (Placement α))) :
    Circuit α × Option (TaskError α) :=
  match family with
  | .error e => (c, some e)
  | .ok ps =>
    let (c, fault) := c.extend ps
    (c, fault.map .circuit)

/-- Checks that a register can be stored, before a family is spread out on it. -/
def checkRegister (width : Nat) : Except (TaskError α) Unit :=
  (checkStorage width).mapError .circuit

/-- A fresh circuit with the given placements. -/
def build (width bits : Nat) (ps : List (Placement α)) : Except (TaskError α) (Circuit α) :=
  ((blank width bits).placeAll ps).mapError .circuit

end QuantumWorkbench.Circuit
