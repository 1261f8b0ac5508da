import QuantumWorkbench.Circuit.Error
import QuantumWorkbench.Problem.Kind
import QuantumWorkbench.State.Basic

/-!
# Faults in problems, samplers and circuit families

Why a problem, a sampler or a circuit family is refused. A fault of the circuit or of the state
below is passed on.
-/

namespace QuantumWorkbench

/-- The reasons for which a synthesis task is refused. -/
inductive TaskError (α : Type) where
  /-- A problem without an encoding. -/
  | notFormulated (kind : ProblemKind)
  /-- A name that is no problem family. -/
  | unknownProblem (name : String)
  /-- A text that is no record of problem data. -/
  | malformedProblem
  /-- An objective without variables. -/
  | noVariables
  /-- A number of variables that exhaustive search does not take. -/
  | searchSize (limit width : Nat)
  /-- A table of assignments that cannot be stored. -/
  | noStorage (count : Nat)
  /-- Annealing without reads. -/
  | noReads
  /-- A starting temperature that is not positive. -/
  | badTemperature
  /-- A cooling rate outside `(0, 1]`. -/
  | badCooling
  /-- One qubit twice in a product of Pauli matrices. -/
  | repeatedFactor (qubit : Nat)
  /-- A sum with an empty term. -/
  | emptyTerm (text : String)
  /-- A factor that is neither a number nor a Pauli matrix on a qubit. -/
  | badFactor (text : String)
  /-- Time evolution in zero steps. -/
  | noSteps
  /-- A Hamiltonian without qubits. -/
  | noQubits
  /-- A multiply controlled phase flip without qubits. -/
  | noControls
  /-- Too few work qubits. -/
  | fewWorkQubits (qubits needed given : Nat)
  /-- A search register without qubits. -/
  | emptySearch
  /-- A search without marked states. -/
  | noMarked
  /-- A search register beyond the word size. -/
  | searchTooWide (width : Nat)
  /-- A marked state outside the register. -/
  | markedOutside (index width : Nat)
  /-- A Fourier transform without qubits. -/
  | emptyTransform
  /-- An ansatz without qubits. -/
  | emptyAnsatz
  /-- A wrong number of angles for an ansatz. -/
  | parameterCount (expected width layers given : Nat)
  /-- A name that is no feature encoding. -/
  | unknownEncoding (name : String)
  /-- A feature that is not a finite number. -/
  | badFeature (value : α)
  /-- Amplitude encoding of a zero vector. -/
  | zeroFeatures
  /-- No features. -/
  | noFeatures
  /-- A fault in a circuit. -/
  | circuit (error : CircuitError α)
  /-- A fault in a simulation. -/
  | state (error : StateError)

namespace TaskError

variable {α : Type} [NumberText α]

/-- What is wrong with an argument. -/
def detail : TaskError α → String
  | notFormulated kind => kind.name ++ " problem is not QUBO-formulated"
  | unknownProblem name => s!"unknown problem type '{name}'"
  | malformedProblem => "malformed problem JSON"
  | noVariables => "QUBO has no variables"
  | searchSize limit width =>
    s!"exhaustive search supports 1..={limit} variables, got {width}"
  | noStorage count => s!"no storage for {count} entries"
  | noReads => "num_reads must be positive"
  | badTemperature => "initial temperature must be positive"
  | badCooling => "cooling rate must be in (0, 1]"
  | repeatedFactor qubit => s!"qubit {qubit} appears twice in one Pauli term"
  | emptyTerm text => s!"empty term in '{text}'"
  | badFactor text => s!"cannot read Pauli factor '{text}'"
  | noSteps => "at least one Trotter step is required"
  | noQubits => "Hamiltonian acts on no qubits"
  | noControls => "multi-controlled Z needs a qubit"
  | fewWorkQubits qubits needed given =>
    s!"multi-controlled Z on {qubits} qubits needs {needed} work qubits, got {given}"
  | emptySearch => "Grover search needs at least one qubit"
  | noMarked => "no marked states"
  | searchTooWide width => s!"{width} qubits is too wide"
  | markedOutside index width => s!"marked state {index} outside {width}-qubit register"
  | emptyTransform => "QFT needs at least one qubit"
  | emptyAnsatz => "ansatz needs at least one qubit"
  | parameterCount expected width layers given =>
    s!"expected {expected} parameters for {width} qubits × {layers} layers, got {given}"
  | unknownEncoding name => s!"unknown feature encoding '{name}'"
  | badFeature value => "feature " ++ NumberText.shortest value ++ " is not finite"
  | zeroFeatures => "amplitude encoding of a zero vector"
  | noFeatures => "no features to encode"
  | circuit error => error.message
  | state error => error.message

/-- The wording of a fault: what was wrong, under a heading of its own unless it comes from the
circuit or the state below. -/
def message : TaskError α → String
  | circuit error => error.message
  | state error => error.message
  | notFormulated kind => "Illegal state: " ++ kind.name ++ " problem is not QUBO-formulated"
  | error => "Invalid argument: " ++ error.detail

end TaskError

/-- The family of a name. -/
def ProblemKind.read {α : Type} (text : String) : Except (TaskError α) ProblemKind :=
  match ofName? text with
  | some kind => .ok kind
  | none => .error (.unknownProblem text)

end QuantumWorkbench
