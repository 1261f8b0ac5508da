import QuantumWorkbench.Algorithm.Alternating
import QuantumWorkbench.Algorithm.Amplification
import QuantumWorkbench.Algorithm.Ansatz
import QuantumWorkbench.Algorithm.Build
import QuantumWorkbench.Algorithm.Feature
import QuantumWorkbench.Algorithm.Fourier
import QuantumWorkbench.Amplitude
import QuantumWorkbench.Circuit.Basic
import QuantumWorkbench.Circuit.Depth
import QuantumWorkbench.Circuit.Error
import QuantumWorkbench.Circuit.Operation
import QuantumWorkbench.Circuit.Placement
import QuantumWorkbench.Circuit.Text
import QuantumWorkbench.Coupling.Document
import QuantumWorkbench.Coupling.Fitting
import QuantumWorkbench.Coupling.Graph
import QuantumWorkbench.Coupling.Path
import QuantumWorkbench.Coupling.Routing
import QuantumWorkbench.Coupling.Target
import QuantumWorkbench.Decimal.Binary
import QuantumWorkbench.Decimal.Fixed
import QuantumWorkbench.Decimal.Reading
import QuantumWorkbench.Decimal.Scientific
import QuantumWorkbench.Decimal.Shortest
import QuantumWorkbench.Gate.Adjoint
import QuantumWorkbench.Gate.Basic
import QuantumWorkbench.Gate.Commutation
import QuantumWorkbench.Gate.Expansion
import QuantumWorkbench.Gate.Kind
import QuantumWorkbench.Gate.Matrix
import QuantumWorkbench.Gate.Unitary
import QuantumWorkbench.Index
import QuantumWorkbench.Json.Decode
import QuantumWorkbench.Json.Printer
import QuantumWorkbench.Json.Reader
import QuantumWorkbench.Json.Value
import QuantumWorkbench.Pauli.Basic
import QuantumWorkbench.Pauli.Document
import QuantumWorkbench.Pauli.Evolution
import QuantumWorkbench.Pauli.Text
import QuantumWorkbench.Problem.Basic
import QuantumWorkbench.Problem.Data
import QuantumWorkbench.Problem.Encoding
import QuantumWorkbench.Problem.Error
import QuantumWorkbench.Problem.Kind
import QuantumWorkbench.Problem.Parameters
import QuantumWorkbench.Proofs.Algorithm.Alternating
import QuantumWorkbench.Proofs.Algorithm.Amplification
import QuantumWorkbench.Proofs.Algorithm.Ansatz
import QuantumWorkbench.Proofs.Algorithm.Appending
import QuantumWorkbench.Proofs.Algorithm.Feature
import QuantumWorkbench.Proofs.Algorithm.Fourier
import QuantumWorkbench.Proofs.Algorithm.Marking
import QuantumWorkbench.Proofs.Algorithm.PhaseFlip
import QuantumWorkbench.Proofs.Circuit.Appending
import QuantumWorkbench.Proofs.Circuit.Chains
import QuantumWorkbench.Proofs.Circuit.Containment
import QuantumWorkbench.Proofs.Circuit.Depth
import QuantumWorkbench.Proofs.Circuit.Independence
import QuantumWorkbench.Proofs.Circuit.Operations
import QuantumWorkbench.Proofs.Circuit.Placement
import QuantumWorkbench.Proofs.Circuit.Register
import QuantumWorkbench.Proofs.Circuit.Reversal
import QuantumWorkbench.Proofs.Coupling.Consistency
import QuantumWorkbench.Proofs.Coupling.Distance
import QuantumWorkbench.Proofs.Coupling.Edges
import QuantumWorkbench.Proofs.Coupling.Exchanges
import QuantumWorkbench.Proofs.Coupling.Expansion
import QuantumWorkbench.Proofs.Coupling.Figures
import QuantumWorkbench.Proofs.Coupling.Fitting
import QuantumWorkbench.Proofs.Coupling.Noise
import QuantumWorkbench.Proofs.Coupling.Path
import QuantumWorkbench.Proofs.Coupling.Routing
import QuantumWorkbench.Proofs.Coupling.Search
import QuantumWorkbench.Proofs.Decimal.Characters
import QuantumWorkbench.Proofs.Double.Exact
import QuantumWorkbench.Proofs.Double.Monotone
import QuantumWorkbench.Proofs.Double.Order
import QuantumWorkbench.Proofs.Double.Rounding
import QuantumWorkbench.Proofs.Double.Sign
import QuantumWorkbench.Proofs.Double.Value
import QuantumWorkbench.Proofs.Double.Whole
import QuantumWorkbench.Proofs.Exact
import QuantumWorkbench.Proofs.Gate.ClosedForm
import QuantumWorkbench.Proofs.Gate.Commuting
import QuantumWorkbench.Proofs.Gate.Comparison
import QuantumWorkbench.Proofs.Gate.Construction
import QuantumWorkbench.Proofs.Gate.Diagonal
import QuantumWorkbench.Proofs.Gate.Fidelity
import QuantumWorkbench.Proofs.Gate.Inverse
import QuantumWorkbench.Proofs.Gate.Network
import QuantumWorkbench.Proofs.Gate.Noise
import QuantumWorkbench.Proofs.Gate.Operator
import QuantumWorkbench.Proofs.Gate.Product
import QuantumWorkbench.Proofs.Gate.Renaming
import QuantumWorkbench.Proofs.Gate.Stored
import QuantumWorkbench.Proofs.Pauli.Evolution
import QuantumWorkbench.Proofs.Pauli.Product
import QuantumWorkbench.Proofs.Pauli.Reading
import QuantumWorkbench.Proofs.Pauli.Text
import QuantumWorkbench.Proofs.Pauli.Width
import QuantumWorkbench.Proofs.Problem.Coloring
import QuantumWorkbench.Proofs.Problem.Cover
import QuantumWorkbench.Proofs.Problem.Cut
import QuantumWorkbench.Proofs.Problem.Objective
import QuantumWorkbench.Proofs.Problem.Packing
import QuantumWorkbench.Proofs.Problem.Parameters
import QuantumWorkbench.Proofs.Problem.Width
import QuantumWorkbench.Proofs.Qubo.Assignment
import QuantumWorkbench.Proofs.Qubo.Spins
import QuantumWorkbench.Proofs.Qubo.Terms
import QuantumWorkbench.Proofs.Qubo.Value
import QuantumWorkbench.Proofs.Qubo.Zeros
import QuantumWorkbench.Proofs.Register.Access
import QuantumWorkbench.Proofs.Register.Action
import QuantumWorkbench.Proofs.Register.Bits
import QuantumWorkbench.Proofs.Register.Layer
import QuantumWorkbench.Proofs.Register.Operator
import QuantumWorkbench.Proofs.Register.Renaming
import QuantumWorkbench.Proofs.Search.Annealing
import QuantumWorkbench.Proofs.Search.Best
import QuantumWorkbench.Proofs.Search.Bitstring
import QuantumWorkbench.Proofs.Search.Exhaustive
import QuantumWorkbench.Proofs.Search.LowerBound
import QuantumWorkbench.Proofs.Search.Scoring
import QuantumWorkbench.Proofs.Search.Walk
import QuantumWorkbench.Proofs.Simplification.Cancellation
import QuantumWorkbench.Proofs.Simplification.Convergence
import QuantumWorkbench.Proofs.Simplification.Economy
import QuantumWorkbench.Proofs.Simplification.Failure
import QuantumWorkbench.Proofs.Simplification.Flags
import QuantumWorkbench.Proofs.Simplification.Flush
import QuantumWorkbench.Proofs.Simplification.Fusing
import QuantumWorkbench.Proofs.Simplification.Fusion
import QuantumWorkbench.Proofs.Simplification.History
import QuantumWorkbench.Proofs.Simplification.Idempotence
import QuantumWorkbench.Proofs.Simplification.InPlace
import QuantumWorkbench.Proofs.Simplification.Meaning
import QuantumWorkbench.Proofs.Simplification.Reordering
import QuantumWorkbench.Proofs.Simplification.Settling
import QuantumWorkbench.Proofs.Simplification.Steps
import QuantumWorkbench.Proofs.Simplification.Stretches
import QuantumWorkbench.Proofs.Simplification.Sweep
import QuantumWorkbench.Proofs.Simplification.Window
import QuantumWorkbench.Proofs.Simulation
import QuantumWorkbench.Proofs.SortedMap
import QuantumWorkbench.Proofs.SortedMap.Weighted
import QuantumWorkbench.Proofs.State.Drawing
import QuantumWorkbench.Proofs.State.Evolution
import QuantumWorkbench.Proofs.State.Histogram
import QuantumWorkbench.Proofs.State.Obtainable
import QuantumWorkbench.Proofs.State.Reduction
import QuantumWorkbench.Proofs.State.Sampling
import QuantumWorkbench.Proofs.Text.Parts
import QuantumWorkbench.Qubit
import QuantumWorkbench.Qubo.Basic
import QuantumWorkbench.Qubo.Ising
import QuantumWorkbench.Random.ChaCha
import QuantumWorkbench.Random.Source
import QuantumWorkbench.Scalar.Basic
import QuantumWorkbench.Scalar.Double
import QuantumWorkbench.Search.Annealing
import QuantumWorkbench.Search.Exhaustive
import QuantumWorkbench.Search.Scoring
import QuantumWorkbench.Search.Solution
import QuantumWorkbench.Simplification.Cancellation
import QuantumWorkbench.Simplification.DeadGate
import QuantumWorkbench.Simplification.Fusion
import QuantumWorkbench.Simplification.Pass
import QuantumWorkbench.Simplification.Pipeline
import QuantumWorkbench.Simplification.Reordering
import QuantumWorkbench.SingularValues.Basic
import QuantumWorkbench.SingularValues.Bidiagonal
import QuantumWorkbench.SingularValues.Iteration
import QuantumWorkbench.SingularValues.Reflection
import QuantumWorkbench.SingularValues.Rotation
import QuantumWorkbench.SortedMap
import QuantumWorkbench.State.Basic
import QuantumWorkbench.State.Measure
import QuantumWorkbench.State.Reduction
import QuantumWorkbench.State.Sampling
import QuantumWorkbench.State.Schmidt
import QuantumWorkbench.State.Simulation
import QuantumWorkbench.Storage
import QuantumWorkbench.Text.Blank
