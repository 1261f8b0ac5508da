import QuantumWorkbench.Algorithm.Build

/-!
# Amplitude amplification

Search circuits for marked basis states. Each iteration flips the phase of every marked state and
reflects about the uniform state. The phase of the all-ones state of many qubits is flipped with the
help of work qubits, which collect the conjunction of the controls and are cleared again.
-/

namespace QuantumWorkbench.Amplification

variable {α : Type} [Scalar α]

/-- The number of work qubits that a phase flip of a number of qubits needs. -/
def workQubits (n : Nat) : Nat := n - 2

/-- The number of iterations that brings the marked states closest to certainty, at least one:
`π/4` times the square root of the inverse share of marked states, rounded down. -/
def optimalIterations (α : Type) [Scalar α] (n marked : Nat) : Nat :=
  if marked = 0 then 1
  else
    let share : α := Scalar.num (Nat.pow 2 n) / Scalar.num marked
    max (Scalar.toNat (Scalar.pi / Scalar.num 4 * Scalar.sqrt share)) 1

/-! ## Phase flips -/

/-- The conjunctions of controls, each with the one before: from an accumulated qubit on, the next
control and the work qubit that takes the result. -/
def ladderFrom (accumulated : Nat) : List Nat → List Nat → List (Nat × Nat × Nat)
  | q :: qs, w :: ws => (accumulated, q, w) :: ladderFrom w qs ws
  | _, _ => []

/-- The gates of a list of conjunctions. -/
def conjunctions (steps : List (Nat × Nat × Nat)) : List (Placement α) :=
  steps.map fun (a, b, t) => .of .toffoli [a, b, t]

/-- Flips the phase of the all-ones state of some qubits. With three or more, all but the last are
collected on the work qubits. -/
def phaseFlip (qubits work : List Nat) : Except (TaskError α) (List (Placement α)) :=
  match qubits with
  | [] => .error .noControls
  | [q] => .ok [.of .z [q]]
  | [a, b] => .ok [.of .cz [a, b]]
  | first :: rest =>
    let needed := workQubits qubits.length
    if work.length < needed then .error (.fewWorkQubits qubits.length needed work.length)
    else
      let steps := ladderFrom first rest.dropLast work
      let flip := .of .cz [work.getD (needed - 1) first, rest.getLastD first]
      .ok (conjunctions steps ++ [flip] ++ conjunctions steps.reverse)

/-! ## Circuits -/

/-- Negations of the qubits at which an index has a zero. -/
def flipZeros (register : List Nat) (index : Nat) : List (Placement α) :=
  (register.filter fun q => !index.testBit q).map fun q => .of .x [q]

/-- Flips the phase of one basis state. -/
def oracle (flip : List (Placement α)) (register : List Nat) (index : Nat) : List (Placement α) :=
  flipZeros register index ++ flip ++ flipZeros register index

/-- Reflects about the uniform state. -/
def diffusion (flip : List (Placement α)) (register : List Nat) : List (Placement α) :=
  (register.flatMap fun q => [.of .h [q], .of .x [q]]) ++ flip ++
    register.flatMap fun q => [.of .x [q], .of .h [q]]

/-- The search circuit for marked basis states of a register. The work qubits follow the register,
and only the register is measured. -/
def circuit (n : Nat) (marked : List Nat) (iterations : Nat) : Except (TaskError α) (Circuit α) :=
  if n = 0 then .error .emptySearch
  else if marked.isEmpty then .error .noMarked
  else if 64 ≤ n then .error (.searchTooWide n)
  else
    match marked.find? fun m => Qubit.dimension n ≤ m with
    | some m => .error (.markedOutside m n)
    | none => do
      let register := List.range n
      let flip ← phaseFlip register (List.range' n (workQubits n))
      let round := marked.flatMap (oracle flip register) ++ diffusion flip register
      let opening := register.map fun q => .of .h [q]
      let c ← Circuit.build (n + workQubits n) n
        (opening ++ (List.replicate iterations round).flatten)
      return c.measureAll

/-- The search circuit with the best number of iterations. A register beyond the word size is
refused whatever their number, so it is not computed there. -/
def optimalCircuit (n : Nat) (marked : List Nat) : Except (TaskError α) (Circuit α) :=
  circuit n marked (if n < 64 then optimalIterations α n marked.length else 1)

end QuantumWorkbench.Amplification
