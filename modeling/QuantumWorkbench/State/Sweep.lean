import QuantumWorkbench.State.Evolution
import QuantumWorkbench.State.Store

/-!
# Gates on stores

A gate acts on a store as it acts on the array that the store stands for. Blocks of two and of four
amplitudes, those of gates on one and on two qubits, are multiplied without making lists of them.
For larger blocks the rows of the matrix are listed once, before the sweep.
-/

namespace QuantumWorkbench

namespace AmplitudeStore

/-! ## Rows of two and of four -/

/-- Two amplitudes. -/
structure Pair (α : Type) where
  a : Amplitude α
  b : Amplitude α

/-- Four amplitudes. -/
structure Quad (α : Type) where
  a : Amplitude α
  b : Amplitude α
  c : Amplitude α
  d : Amplitude α

variable {α : Type} [Scalar α]

/-- The first two entries of a row. -/
def Pair.ofRow (m : SquareMatrix α) (row : Nat) : Pair α := ⟨m.entry row 0, m.entry row 1⟩

/-- The first four entries of a row. -/
def Quad.ofRow (m : SquareMatrix α) (row : Nat) : Quad α :=
  ⟨m.entry row 0, m.entry row 1, m.entry row 2, m.entry row 3⟩

/-- The product of a row and a block of two. -/
@[inline] def Pair.dot (r z : Pair α) : Amplitude α := 0 + r.a * z.a + r.b * z.b

/-- The product of a row and a block of four. -/
@[inline] def Quad.dot (r z : Quad α) : Amplitude α :=
  0 + r.a * z.a + r.b * z.b + r.c * z.c + r.d * z.d

/-! ## Rows of any length -/

/-- The product of a row and a block, added to the given parts. -/
@[specialize] def dotFrom : List (Amplitude α) → List (Amplitude α) → α → α → Amplitude α
  | r :: rs, z :: zs, re, im => dotFrom rs zs (re + (r * z).re) (im + (r * z).im)
  | _, _, re, im => ⟨re, im⟩

/-- The product of a row and a block. -/
@[inline] def dot (row block : List (Amplitude α)) : Amplitude α := dotFrom row block 0 0

/-- The row of a matrix for each place of a block, beside that place. -/
def rowsOf (m : SquareMatrix α) (offsets : List Nat) : List (Nat × List (Amplitude α)) :=
  offsets.zipIdx.map fun (offset, row) => (offset, (List.range offsets.length).map (m.entry row))

theorem dotFrom_eq (m : SquareMatrix α) (row : Nat) (block : List (Amplitude α)) (start : Nat)
    (re im : α) :
    dotFrom ((List.range' start block.length).map (m.entry row)) block re im =
      ((block.zipIdx start).map fun (z, col) => m.entry row col * z).foldl (· + ·) ⟨re, im⟩ := by
  induction block generalizing start re im with
  | nil => rfl
  | cons z block ih => exact ih (start + 1) _ _

theorem dot_eq (m : SquareMatrix α) (row : Nat) (block : List (Amplitude α)) :
    dot ((List.range block.length).map (m.entry row)) block = Gate.rowProduct m row block := by
  rw [dot, List.range_eq_range', dotFrom_eq]
  rfl

/-! ## Blocks -/

variable [AmplitudeStore α]

/-- Multiplies the block of two at a base index. -/
@[inline] def onPair (r₀ r₁ : Pair α) (p₀ p₁ : Nat) (s : Store α) (base : Nat) : Store α :=
  let z : Pair α := ⟨read s (base ||| p₀), read s (base ||| p₁)⟩
  write (write s (base ||| p₀) (r₀.dot z)) (base ||| p₁) (r₁.dot z)

/-- Multiplies the block of four at a base index. -/
@[inline] def onQuad (r₀ r₁ r₂ r₃ : Quad α) (p₀ p₁ p₂ p₃ : Nat) (s : Store α) (base : Nat) :
    Store α :=
  let z : Quad α :=
    ⟨read s (base ||| p₀), read s (base ||| p₁), read s (base ||| p₂), read s (base ||| p₃)⟩
  let s := write (write s (base ||| p₀) (r₀.dot z)) (base ||| p₁) (r₁.dot z)
  write (write s (base ||| p₂) (r₂.dot z)) (base ||| p₃) (r₃.dot z)

/-- Multiplies the block at a base index. -/
@[specialize] def onBlock (rows : List (Nat × List (Amplitude α))) (s : Store α) (base : Nat) :
    Store α :=
  let block := rows.map fun e => read s (base ||| e.1)
  rows.foldl (fun s e => write s (base ||| e.1) (dot e.2 block)) s

theorem toArray_onPair (m : SquareMatrix α) (p₀ p₁ : Nat) (s : Store α) (base : Nat) :
    toArray (onPair (.ofRow m 0) (.ofRow m 1) p₀ p₁ s base) =
      Gate.actOnBlock m [p₀, p₁] (toArray s) base := by
  simp only [onPair, toArray_write, read_eq]
  rfl

theorem toArray_onQuad (m : SquareMatrix α) (p₀ p₁ p₂ p₃ : Nat) (s : Store α) (base : Nat) :
    toArray (onQuad (.ofRow m 0) (.ofRow m 1) (.ofRow m 2) (.ofRow m 3) p₀ p₁ p₂ p₃ s base) =
      Gate.actOnBlock m [p₀, p₁, p₂, p₃] (toArray s) base := by
  simp only [onQuad, toArray_write, read_eq]
  rfl

theorem toArray_onBlock (m : SquareMatrix α) (offsets : List Nat) (s : Store α) (base : Nat) :
    toArray (onBlock (rowsOf m offsets) s base) = Gate.actOnBlock m offsets (toArray s) base := by
  have hwrites : ∀ (rows : List (Nat × List (Amplitude α))) (block : List (Amplitude α))
      (s : Store α),
      toArray (rows.foldl (fun s e => write s (base ||| e.1) (dot e.2 block)) s) =
        rows.foldl (fun acc e => acc.setIfInBounds (base ||| e.1) (dot e.2 block)) (toArray s) := by
    intro rows block
    induction rows with
    | nil => intro s; rfl
    | cons e rows ih => intro s; rw [List.foldl_cons, List.foldl_cons, ih, toArray_write]
  -- the block is read at the places of the rows before anything is written
  have hblock : (rowsOf m offsets).map (fun e => read s (base ||| e.1)) =
      offsets.map fun offset => (toArray s).getD (base ||| offset) 0 := by
    have hplaces : (rowsOf m offsets).map Prod.fst = offsets := by
      simp [rowsOf, Function.comp_def]
    rw [← congrArg (List.map _) hplaces, List.map_map]
    simp only [read_eq, Function.comp_def]
  rw [onBlock, hwrites, hblock, rowsOf, List.foldl_map, Gate.actOnBlock]
  simp only [← dot_eq, List.length_map]

/-! ## Sweeps -/

/-- Carries out a step at every base index, that is where the occupied bits are zero. -/
@[inline] def sweep (occupied : Nat) (step : Store α → Nat → Store α) (s : Store α) : Store α :=
  (size s).fold (fun base _ s => if base &&& occupied = 0 then step s base else s) s

theorem toArray_sweep {step : Store α → Nat → Store α} {m : SquareMatrix α} {offsets : List Nat}
    (h : ∀ s base, toArray (step s base) = Gate.actOnBlock m offsets (toArray s) base)
    (occupied : Nat) (s : Store α) :
    toArray (sweep occupied step s) =
      (toArray s).size.fold (fun base _ acc =>
        if base &&& occupied = 0 then Gate.actOnBlock m offsets acc base else acc) (toArray s) := by
  rw [sweep, size_eq]
  induction (toArray s).size with
  | zero => rfl
  | succ n ih =>
    rw [Nat.fold_succ, Nat.fold_succ, ← ih]
    split
    · exact h _ _
    · rfl

end AmplitudeStore

/-! ## Gates -/

namespace Gate

open AmplitudeStore

variable {α : Type} [Scalar α] [AmplitudeStore α]

/-- Applies a gate to a store. -/
@[specialize] def actIn (g : Gate α) (s : Store α) : Store α :=
  let m := g.matrix
  if m.dim = Qubit.dimension g.width then
    let occupied := occupied g.qubits
    -- the number of places says which form of the block is used
    match g.offsets with
    | [p₀, p₁] => sweep occupied (onPair (.ofRow m 0) (.ofRow m 1) p₀ p₁) s
    | [p₀, p₁, p₂, p₃] =>
      sweep occupied (onQuad (.ofRow m 0) (.ofRow m 1) (.ofRow m 2) (.ofRow m 3) p₀ p₁ p₂ p₃) s
    | offsets => sweep occupied (onBlock (rowsOf m offsets)) s
  else s

theorem toArray_actIn (g : Gate α) (s : Store α) : toArray (g.actIn s) = g.act (toArray s) := by
  unfold actIn act
  dsimp only
  split
  · -- the three kinds of block
    split
    · next hoffsets =>
      rw [hoffsets]
      exact toArray_sweep (fun s base => toArray_onPair _ _ _ s base) _ _
    · next hoffsets =>
      rw [hoffsets]
      exact toArray_sweep (fun s base => toArray_onQuad _ _ _ _ _ s base) _ _
    · exact toArray_sweep (fun s base => toArray_onBlock _ _ s base) _ _
  · rfl

/-- Applies gates one after another, in the store of their scalars. -/
@[specialize] def actAllStored (gates : List (Gate α)) (amplitudes : Array (Amplitude α)) :
    Array (Amplitude α) :=
  toArray (gates.foldl (fun s g => g.actIn s) (ofArray amplitudes))

theorem actAllStored_eq (gates : List (Gate α)) (amplitudes : Array (Amplitude α)) :
    actAllStored gates amplitudes = actAll gates amplitudes := by
  have hfold : ∀ s : Store α,
      toArray (gates.foldl (fun s g => g.actIn s) s) = actAll gates (toArray s) := by
    induction gates with
    | nil => intro s; rfl
    | cons g gates ih => intro s; rw [List.foldl_cons, ih, toArray_actIn]; rfl
  rw [actAllStored, hfold, toArray_ofArray]

end Gate

end QuantumWorkbench
