import QuantumWorkbench.Circuit.Depth

/-!
# The text of a circuit

A heading with the sizes, one line for each gate with its position, and one for each measurement.
-/

namespace QuantumWorkbench

/-- The line of a measurement. -/
def Measurement.text (m : Measurement) : String :=
  "measure " ++ Qubit.label m.qubit ++ s!" -> c{m.bit} (" ++ Measurement.basis ++ ")"

/-- The lines of a circuit, if it has a depth. -/
def Circuit.text? {α : Type} [Scalar α] [NumberText α] (c : Circuit α) : Option String :=
  c.depth?.map fun depth =>
    let heading :=
      s!"QuantumCircuit({c.width} qubits, {c.bits} classical bits, {c.gates.length} gates, " ++
        s!"depth {depth})\n"
    let gates := c.gates.zipIdx.map fun (g, position) => s!"  {position}: " ++ g.text ++ "\n"
    let measurements := c.measurements.map fun m => "  " ++ m.text ++ "\n"
    heading ++ String.join gates ++ String.join measurements

end QuantumWorkbench
