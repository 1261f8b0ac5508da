import QuantumWorkbench.Circuit.Basic
import QuantumWorkbench.State.Sweep

/-!
# Simulation of circuits

A circuit makes a state of the all-zero state by applying its gates one after another.
-/

namespace QuantumWorkbench.Circuit

variable {α : Type} [Scalar α] [AmplitudeStore α]

/-- The widest register that is simulated unless another limit is given. -/
def defaultWidthLimit : Nat := 24

/-- The state that a circuit makes of the all-zero state, unless its register is too wide or a gate
reaches beyond the vector. -/
@[specialize] def state (c : Circuit α) (limit : Nat) : Except StateError (StateVector α) := do
  if limit < c.width then .error (.tooWide c.width limit)
  let start ← StateVector.storedBasis c.width 0
  if c.gates.all fun g => g.fits start.dimension then
    StateVector.ofAmplitudes (Gate.actAllStored c.gates start.amplitudes)
  else .error (.beyondVector start.dimension)

/-- The form in which the amplitudes are kept does not show in the state. -/
theorem state_eq (c : Circuit α) (limit : Nat) :
    c.state limit = (do
      if limit < c.width then .error (.tooWide c.width limit)
      let start ← StateVector.storedBasis c.width 0
      if c.gates.all fun g => g.fits start.dimension then
        StateVector.ofAmplitudes (Gate.actAll c.gates start.amplitudes)
      else .error (.beyondVector start.dimension)) := by
  simp only [state, Gate.actAllStored_eq]

end QuantumWorkbench.Circuit
