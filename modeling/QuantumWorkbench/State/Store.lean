import QuantumWorkbench.Amplitude
import QuantumWorkbench.Scalar.Double

/-!
# Stores of amplitudes

A vector that gates are applied to is kept in the form that suits its scalars. Whatever the form, a
store stands for one array of amplitudes, and reading and writing it does what reading and writing
that array does.
-/

namespace QuantumWorkbench

/-- A form in which vectors of amplitudes are kept. -/
class AmplitudeStore (α : Type) [Scalar α] where
  /-- A vector in this form. -/
  Store : Type
  /-- The vector of an array. -/
  ofArray : Array (Amplitude α) → Store
  /-- The array that a vector stands for. -/
  toArray : Store → Array (Amplitude α)
  /-- The number of amplitudes. -/
  size : Store → Nat
  /-- The amplitude at an index, zero beyond the vector. -/
  read : Store → Nat → Amplitude α
  /-- Changes the amplitude at an index, if the vector has it. -/
  write : Store → Nat → Amplitude α → Store
  toArray_ofArray : ∀ as, toArray (ofArray as) = as
  size_eq : ∀ s, size s = (toArray s).size
  read_eq : ∀ s i, read s i = (toArray s).getD i 0
  toArray_write : ∀ s i z, toArray (write s i z) = (toArray s).setIfInBounds i z

namespace AmplitudeStore

/-- The array itself. -/
instance (priority := low) plain {α : Type} [Scalar α] : AmplitudeStore α where
  Store := Array (Amplitude α)
  ofArray as := as
  toArray s := s
  size s := s.size
  read s i := s.getD i 0
  write s i z := s.setIfInBounds i z
  toArray_ofArray _ := rfl
  size_eq _ := rfl
  read_eq _ _ := rfl
  toArray_write _ _ _ := rfl

end AmplitudeStore

/-! ## Double precision -/

/-- A vector of amplitudes in double precision: real and imaginary parts in turn, without
indirection. -/
structure PackedVector where
  parts : FloatArray
  even : parts.size % 2 = 0

namespace PackedVector

/-! ### Parts -/

/-- The part at an index, zero beyond the vector. It stays a call of its own, which hands the double
over without a box. -/
@[noinline] def part (parts : FloatArray) (i : Nat) : Float :=
  if h : i < parts.size then parts.get i h else Double.zero

/-- Changes the part at an index, if there is one. -/
@[inline] def setPart (parts : FloatArray) (i : Nat) (x : Float) : FloatArray :=
  if h : i < parts.size then parts.set i x h else parts

theorem part_eq (parts : FloatArray) (i : Nat) :
    part parts i = parts.data[i]?.getD Double.zero := by
  obtain ⟨data⟩ := parts
  rw [← Array.getD_eq_getD_getElem?]
  rfl

theorem part_of_le {parts : FloatArray} {i : Nat} (h : parts.size ≤ i) :
    part parts i = Double.zero := dif_neg (Nat.not_lt.2 h)

theorem data_setPart (parts : FloatArray) (i : Nat) (x : Float) :
    (setPart parts i x).data = parts.data.setIfInBounds i x := by
  obtain ⟨data⟩ := parts
  unfold setPart Array.setIfInBounds
  split
  · next h => rw [dif_pos (show i < data.size from h)]; rfl
  · next h => rw [dif_neg (show ¬ i < data.size from h)]

theorem size_setPart (parts : FloatArray) (i : Nat) (x : Float) :
    (setPart parts i x).size = parts.size := by
  have h := congrArg Array.size (data_setPart parts i x)
  rwa [Array.size_setIfInBounds] at h

theorem part_setPart {parts : FloatArray} {j : Nat} (h : j < parts.size) (i : Nat) (x : Float) :
    part (setPart parts i x) j = if i = j then x else part parts j := by
  have hlt : j < parts.data.size := h
  rw [part_eq, part_eq, data_setPart, Array.getElem?_setIfInBounds]
  split
  · simp [*]
  · rfl

theorem size_push (parts : FloatArray) (x : Float) : (parts.push x).size = parts.size + 1 :=
  Array.size_push _

theorem part_push (parts : FloatArray) (x : Float) (i : Nat) :
    part (parts.push x) i = if i = parts.size then x else part parts i := by
  obtain ⟨data⟩ := parts
  rw [part_eq, part_eq, show (FloatArray.push ⟨data⟩ x).data = data.push x from rfl,
    Array.getElem?_push, show (FloatArray.size ⟨data⟩) = data.size from rfl]
  split <;> rfl

/-! ### Amplitudes -/

/-- The number of amplitudes. -/
@[inline] def size (v : PackedVector) : Nat := v.parts.size / 2

/-- The amplitude at an index, zero beyond the vector. -/
@[inline] def read (v : PackedVector) (i : Nat) : Amplitude Float :=
  ⟨part v.parts (2 * i), part v.parts (2 * i + 1)⟩

/-- Changes the amplitude at an index, if the vector has it. -/
@[inline] def write (v : PackedVector) (i : Nat) (z : Amplitude Float) : PackedVector :=
  ⟨setPart (setPart v.parts (2 * i) z.re) (2 * i + 1) z.im, by
    rw [size_setPart, size_setPart]
    exact v.even⟩

/-- The vector without amplitudes, with room for a number of them. -/
@[inline] def withRoom (count : Nat) : PackedVector := ⟨.emptyWithCapacity (2 * count), rfl⟩

/-- The vector with one more amplitude. -/
@[inline] def push (v : PackedVector) (z : Amplitude Float) : PackedVector :=
  ⟨(v.parts.push z.re).push z.im, by
    have := v.even
    rw [size_push, size_push]
    omega⟩

/-- The vector of an array. -/
def ofArray (as : Array (Amplitude Float)) : PackedVector := as.foldl push (withRoom as.size)

/-- The amplitudes of a vector. -/
def toArray (v : PackedVector) : Array (Amplitude Float) :=
  Array.ofFn fun i : Fin v.size => v.read i

theorem size_toArray (v : PackedVector) : v.toArray.size = v.size := Array.size_ofFn

theorem read_eq (v : PackedVector) (i : Nat) : v.read i = v.toArray.getD i 0 := by
  unfold Array.getD
  split
  · next h => exact (Array.getElem_ofFn h).symm
  · next h =>
    -- the number of parts is even, so both parts lie beyond the vector
    rw [size_toArray, size] at h
    have := v.even
    rw [read, part_of_le (by omega), part_of_le (by omega)]
    rfl

theorem size_write (v : PackedVector) (i : Nat) (z : Amplitude Float) :
    (v.write i z).size = v.size := by
  rw [size, write, size_setPart, size_setPart, size]

theorem read_write {v : PackedVector} {j : Nat} (h : j < v.size) (i : Nat) (z : Amplitude Float) :
    (v.write i z).read j = if i = j then z else v.read j := by
  have := v.even
  rw [size] at h
  have hre : 2 * j < v.parts.size := by omega
  have him : 2 * j + 1 < v.parts.size := by omega
  -- the second part is set in parts that are as many as before
  have hset : (setPart v.parts (2 * i) z.re).size = v.parts.size := size_setPart _ _ _
  have hre' := hset.symm ▸ hre
  have him' := hset.symm ▸ him
  rw [read, read, write, part_setPart hre', part_setPart him', part_setPart hre, part_setPart him]
  by_cases hij : i = j
  · subst hij
    rw [if_neg (by omega), if_pos rfl, if_pos rfl, if_pos rfl]
  · rw [if_neg (by omega), if_neg (by omega), if_neg (by omega), if_neg (by omega), if_neg hij]

theorem toArray_write (v : PackedVector) (i : Nat) (z : Amplitude Float) :
    (v.write i z).toArray = v.toArray.setIfInBounds i z := by
  refine Array.ext (by simp [size_toArray, size_write]) fun j hj hj' => ?_
  rw [size_toArray, size_write] at hj
  rw [Array.getElem_setIfInBounds (by simpa [size_toArray] using hj)]
  simp only [toArray, Array.getElem_ofFn]
  exact read_write hj i z

theorem size_push_amplitude (v : PackedVector) (z : Amplitude Float) :
    (v.push z).size = v.size + 1 := by
  rw [size, push, size_push, size_push, size]
  omega

theorem read_push (v : PackedVector) (z : Amplitude Float) (i : Nat) :
    (v.push z).read i = if i = v.size then z else v.read i := by
  have := v.even
  rw [read, read, push, part_push, part_push, part_push, part_push, size_push, size]
  -- the new parts are the last two
  by_cases hi : i = v.parts.size / 2
  · rw [if_neg (by omega), if_pos (by omega), if_pos (by omega), if_pos hi]
  · rw [if_neg (by omega), if_neg (by omega), if_neg (by omega), if_neg (by omega), if_neg hi]

theorem toArray_push (v : PackedVector) (z : Amplitude Float) :
    (v.push z).toArray = v.toArray.push z := by
  refine Array.ext (by simp [size_toArray, size_push_amplitude]) fun i hi hi' => ?_
  rw [size_toArray, size_push_amplitude] at hi
  rw [Array.getElem_push]
  simp only [toArray, Array.getElem_ofFn, Array.size_ofFn, read_push]
  split
  · rw [dif_neg (by omega)]
  · rw [dif_pos (by omega)]

theorem toArray_ofArray (as : Array (Amplitude Float)) : (ofArray as).toArray = as := by
  have hpush : ∀ (zs : List (Amplitude Float)) (v : PackedVector),
      (zs.foldl push v).toArray = v.toArray ++ zs := by
    intro zs
    induction zs with
    | nil => intro v; simp
    | cons z zs ih => intro v; rw [List.foldl_cons, ih, toArray_push]; simp
  -- room alone holds no amplitude
  have hroom : (withRoom as.size).toArray = #[] := Array.eq_empty_of_size_eq_zero (by
    rw [size_toArray, size]
    exact (Nat.zero_div 2))
  rw [ofArray, ← Array.foldl_toList, hpush, hroom]
  simp

end PackedVector

/-- Amplitudes in double precision are kept packed. -/
instance : AmplitudeStore Float where
  Store := PackedVector
  ofArray := PackedVector.ofArray
  toArray := PackedVector.toArray
  size := PackedVector.size
  read := PackedVector.read
  write := PackedVector.write
  toArray_ofArray := PackedVector.toArray_ofArray
  size_eq v := v.size_toArray.symm
  read_eq := PackedVector.read_eq
  toArray_write := PackedVector.toArray_write

end QuantumWorkbench
