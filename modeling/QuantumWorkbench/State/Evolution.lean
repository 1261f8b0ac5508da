import QuantumWorkbench.Gate.Basic
import QuantumWorkbench.State.Basic

/-!
# Evolution of states

A gate acts on a vector block by block. A block is the set of basis indices that agree outside the
qubits of the gate; its amplitudes are read together, multiplied by the matrix of the gate, and
written back. The first qubit of the gate is the most significant bit of a position in the block.
-/

namespace QuantumWorkbench

namespace Gate

/-- The basis index with the bits of a position in a block put at the qubits of a gate. -/
def spread : List Nat → Nat → Nat
  | [], _ => 0
  | q :: qs, position =>
    (if Qubit.isSet position qs.length then Qubit.mask q else 0) ||| spread qs position

/-- The basis index with the bits of all given qubits set. -/
def occupied (qubits : List Nat) : Nat := qubits.foldl (fun acc q => acc ||| Qubit.mask q) 0

variable {α : Type} [Scalar α]

/-- The entry of a matrix-vector product in one row. -/
def rowProduct (m : SquareMatrix α) (row : Nat) (block : List (Amplitude α)) : Amplitude α :=
  Amplitude.sum (block.zipIdx.map fun (z, col) => m.entry row col * z)

/-- Multiplies the block at a base index, of which the qubits of the gate are zero. -/
def actOnBlock (m : SquareMatrix α) (offsets : List Nat) (amplitudes : Array (Amplitude α))
    (base : Nat) : Array (Amplitude α) :=
  let block := offsets.map fun offset => amplitudes.getD (base ||| offset) 0
  offsets.zipIdx.foldl (fun acc (offset, row) =>
    acc.setIfInBounds (base ||| offset) (rowProduct m row block)) amplitudes

/-- The places of the amplitudes of a block, counted from its base. -/
def offsets (g : Gate α) : List Nat :=
  (List.range (Qubit.dimension g.width)).map (spread g.qubits)

/-- Applies a gate to a vector. A matrix that does not fit the number of qubits does nothing. -/
def act (g : Gate α) (amplitudes : Array (Amplitude α)) : Array (Amplitude α) :=
  let m := g.matrix
  if m.dim = Qubit.dimension g.width then
    let offsets := g.offsets
    let occupied := occupied g.qubits
    amplitudes.size.fold (fun base _ acc =>
      if base &&& occupied = 0 then actOnBlock m offsets acc base else acc) amplitudes
  else amplitudes

theorem act_of_dim_ne {g : Gate α} (h : g.matrix.dim ≠ Qubit.dimension g.width)
    (amplitudes : Array (Amplitude α)) : g.act amplitudes = amplitudes := if_neg h

/-- Whether a gate reaches no further than a vector: the places of a block lie in it, or the gate
does nothing. -/
def fits (g : Gate α) (dimension : Nat) : Bool :=
  g.offsets.all (fun offset => offset < dimension) || g.matrix.dim != Qubit.dimension g.width

/-- Applies gates one after another. -/
def actAll (gates : List (Gate α)) (amplitudes : Array (Amplitude α)) : Array (Amplitude α) :=
  gates.foldl (fun acc g => g.act acc) amplitudes

end Gate

end QuantumWorkbench
