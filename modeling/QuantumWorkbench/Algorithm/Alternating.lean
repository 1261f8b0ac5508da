import QuantumWorkbench.Algorithm.Build
import QuantumWorkbench.Problem.Basic
import QuantumWorkbench.Random.Source
import QuantumWorkbench.Search.Scoring

/-!
# Alternating cost and mixer layers

The approximate-optimization circuit of a quadratic objective. Each layer turns every variable of a
diagonal term, turns every pair of an off-diagonal term between two controlled negations, and mixes
all qubits.
-/

namespace QuantumWorkbench.Alternating

variable {α σ : Type} [Scalar α]

/-- The state that the layers start from. -/
inductive Start where
  | uniform
  | zero
  deriving DecidableEq, Repr

/-- How a circuit starts, and whether it ends by measuring every qubit. -/
structure Config where
  start : Start
  measure : Bool
  deriving DecidableEq, Repr

/-- From the uniform state, with measurement. -/
def Config.standard : Config := ⟨.uniform, true⟩

/-- The number of layers that two lists of angles give. -/
def layers (gammas betas : List α) : Nat := min gammas.length betas.length

/-- The gates of one term. -/
def termGates (gamma : α) (term : (Nat × Nat) × α) : List (Placement α) :=
  let ((i, j), x) := term
  if i = j then [.turn .rz i (gamma * x)]
  else [.of .cnot [i, j], .turn .rz j (gamma * x), .of .cnot [i, j]]

/-- The gates of the objective, term by term in their order. -/
def costLayer (q : Qubo α) (gamma : α) : List (Placement α) :=
  q.terms.entries.flatMap (termGates gamma)

/-- The gates that mix the qubits. -/
def mixerLayer (n : Nat) (beta : α) : List (Placement α) :=
  (List.range n).map fun qubit => .turn .rx qubit beta

/-- The gates of the whole circuit. -/
def gates (q : Qubo α) (gammas betas : List α) (start : Start) : List (Placement α) :=
  let n := q.width
  let opening := match start with
    | .uniform => (List.range n).map fun qubit => .of .h [qubit]
    | .zero => []
  opening ++ (gammas.zip betas).flatMap fun (gamma, beta) => costLayer q gamma ++ mixerLayer n beta

/-- The circuit of an objective with at least one variable. -/
def circuit (q : Qubo α) (gammas betas : List α) (config : Config) :
    Except (TaskError α) (Circuit α) :=
  let n := q.width
  if n = 0 then .error .noVariables
  else do
    Circuit.checkRegister n
    let c ← Circuit.build n n (gates q gammas betas config.start)
    return if config.measure then c.measureAll else c

/-- Random angles for a number of layers: up to a half turn for the costs, a quarter for the
mixers. There are none for more layers than can be stored. -/
def randomAngles? (source : Random.Source σ α) (depth : Nat) (s : σ) :
    Option (List α × List α) :=
  if Storage.holdsScalars depth then
    let pairs := (Random.draws (fun s =>
      let (g, s) := source.unit s
      let (b, s) := source.unit s
      ((g, b), s)) depth s).1
    some (pairs.map fun (g, _) => g * Scalar.pi,
      pairs.map fun (_, b) => b * (Scalar.pi / Scalar.two))
  else none

end QuantumWorkbench.Alternating

namespace QuantumWorkbench.Problem

variable {α σ : Type} [Scalar α]

/-- The alternating circuit of a problem that is encoded. -/
def alternating (p : Problem α) (gammas betas : List α) (config : Alternating.Config) :
    Except (TaskError α) (Circuit α) :=
  match p.qubo? with
  | some q => Alternating.circuit q gammas betas config
  | none => .error (.notFormulated p.kind)

/-- Runs the alternating circuit of a problem and takes the best of what was measured. -/
@[specialize] def sampleAlternating [AmplitudeStore α] (p : Problem α) (gammas betas : List α)
    (limit shots : Nat) (source : Random.Source σ α) (s : σ) :
    Except (TaskError α) (Option (Sample α)) := do
  let c ← p.alternating gammas betas .standard
  let (run, _) ← (c.run limit shots source s).mapError .state
  return p.best run.counts

end QuantumWorkbench.Problem
