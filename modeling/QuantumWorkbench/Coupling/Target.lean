import QuantumWorkbench.Coupling.Graph
import QuantumWorkbench.Gate.Expansion

/-!
# Devices

A device is given by a coupling graph, if it has one, and the names of the gates it carries out
itself. Without a graph every pair of qubits is adjacent.
-/

namespace QuantumWorkbench

/-- A device that circuits are fitted to. -/
structure Device where
  coupling : Option CouplingGraph
  native : SortedSet String
  deriving DecidableEq

namespace Device

/-- The names of the gates that a device carries out unless told otherwise. -/
def defaultNative : List String := ["h", "rx", "ry", "rz", "cnot"]

/-- The device with the default gates. -/
def ofCoupling (coupling : Option CouplingGraph) : Device := ⟨coupling, .ofList defaultNative⟩

/-- The device with other gates, named in any spelling that the catalog knows. -/
def withNative (d : Device) (names : List String) : Device :=
  { d with native := .ofList (names.map fun n => (GateKind.ofName n).name) }

/-- Whether a device carries out a kind of gate, under its own name or another. -/
def isNative (d : Device) (kind : GateKind) : Bool :=
  d.native.contains kind.name || d.native.keys.any fun n => GateKind.ofName n = kind

/-- Whether two qubits of a device are adjacent. -/
def adjacent (d : Device) (a b : Nat) : Bool :=
  match d.coupling with
  | some g => g.connects a b
  | none => true

/-! ## Expansion of gates that are not native -/

variable {α : Type} [Scalar α]

/-- Whether a gate has to be written out: it is not native, and it is one of the two kinds that are
expanded for devices. -/
def needsExpansion (d : Device) (g : Gate α) : Bool :=
  !d.isNative g.kind && (g.kind = .toffoli || g.kind = .cz)

/-- A gate as the device carries it out. -/
def expand (d : Device) (g : Gate α) : List (Gate α) :=
  if d.needsExpansion g then g.expansion else [g]

/-- The gates of a list as the device carries them out. -/
def expandAll (d : Device) (gates : List (Gate α)) : List (Gate α) := gates.flatMap d.expand

end Device

end QuantumWorkbench
