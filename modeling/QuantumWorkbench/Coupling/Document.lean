import QuantumWorkbench.Coupling.Target
import QuantumWorkbench.Json.Decode
import QuantumWorkbench.Json.Printer

/-!
# Devices as JSON documents

A coupling graph is a record of the number of qubits and the neighbours by qubit; a device is a
record of an optional graph and the names of its gates. What is read is taken as it stands: edges in
one direction, and names in any spelling.
-/

namespace QuantumWorkbench

/-! ## Writing -/

/-- A coupling graph as a document. -/
def CouplingGraph.document (g : CouplingGraph) : Json.Value :=
  .record [("num_qubits", .ofNat g.qubits),
    ("edges", .record (g.adjacency.entries.map fun (q, set) =>
      (toString q, .ofList .ofNat set.keys)))]

/-- A device as a document. -/
def Device.document (d : Device) : Json.Value :=
  .record [("connectivity", .ofOption CouplingGraph.document d.coupling),
    ("native_gates", .ofList .ofText d.native.keys)]

/-! ## Reading -/

/-- Reads a coupling graph. -/
def CouplingGraph.ofDocument? (v : Json.Value) : Option CouplingGraph := do
  let [qubits, edges] ← v.record? ["num_qubits", "edges"] | none
  let qubits ← (← qubits).index?
  let adjacency ← (← edges).indexMap? fun set =>
    (set.listOf? Json.Value.index?).map SortedSet.ofList
  some ⟨qubits, adjacency⟩

/-- Reads a graph or its absence. -/
def Device.couplingOf? : Option Json.Value → Option (Option CouplingGraph)
  | none | some .null => some none
  | some v => (CouplingGraph.ofDocument? v).map some

/-- Reads the names of the gates; a missing list stands for the default. -/
def Device.nativeOf? : Option Json.Value → Option (SortedSet String)
  | none => some (.ofList Device.defaultNative)
  | some v => (v.listOf? Json.Value.string?).map SortedSet.ofList

/-- Reads a device. -/
def Device.ofDocument? (v : Json.Value) : Option Device := do
  let [coupling, native] ← v.record? ["connectivity", "native_gates"] | none
  some ⟨← couplingOf? coupling, ← nativeOf? native⟩

end QuantumWorkbench
