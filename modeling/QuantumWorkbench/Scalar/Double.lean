import QuantumWorkbench.Scalar.Basic

/-!
# Double-precision scalars

The instance the program runs on. Sums and products round to nearest; comparison with an undefined
value is false; the total order places negative values before positive ones, negative zero
before zero, and undefined values at the two ends.
-/

namespace QuantumWorkbench.Double

/-- The bit that the sign of a double is kept in. -/
def signBit : UInt64 := 0x8000000000000000

/-- The position of a double in the total order: its bits with the sign bit set, or all of them
turned over where the sign is negative. -/
def rank (x : Float) : UInt64 :=
  let bits := x.toBits
  if bits < signBit then bits ||| signBit else ~~~bits

/-- The double nearest to a natural number. One word is converted at once. -/
def ofNat (n : Nat) : Float :=
  let word := n.toUInt64
  if word.toNat = n then word.toFloat else Float.ofNat n

/-- Zero, as a value that is made once. -/
@[noinline] def zero : Float := 0.0

/-- One, as a value that is made once. -/
@[noinline] def one : Float := 1.0

/-- The length of a vector with components `0 ≤ y ≤ x` whose squares neither overflow nor vanish.
The rounded root `h` is corrected by `(x² + y² - h²) / 2h`; the difference of squares is taken apart
by the nearer of `x` and `2y`, so that little of it cancels. -/
def lengthInRange (x y : Float) : Float :=
  let h := (x * x + y * y).sqrt
  let excess :=
    if h ≤ 2 * y then
      let d := h - y
      x * (2 * d - x) + (d - 2 * (x - y)) * d
    else
      let d := h - x
      2 * d * (x - 2 * y) + ((4 * d - y) * y + d * d)
  h - excess / (2 * h)

/-- The length of a vector with components `0 ≤ y ≤ x`. Where the smaller one is lost beside the
larger, their sum is the length; very large and very small ones are scaled by a power of two. -/
def lengthOrdered (x y : Float) : Float :=
  let shrink := Float.scaleB 1 (-600)
  if y * Float.scaleB 1 54 ≤ x then x + y
  else if Float.scaleB 1 511 < x then lengthInRange (x * shrink) (y * shrink) / shrink
  else if y < Float.scaleB 1 (-459) then lengthInRange (x / shrink) (y / shrink) * shrink
  else lengthInRange x y

/-- The length of a vector, correct to less than one unit in the last place. An infinite component
makes it infinite. -/
def hypot (x y : Float) : Float :=
  let a := x.abs
  let b := y.abs
  if a.isInf || b.isInf then 1 / 0
  else if a < b then lengthOrdered b a
  else lengthOrdered a b

end QuantumWorkbench.Double

namespace QuantumWorkbench

instance : Scalar Float where
  toZero := ⟨Double.zero⟩
  toOne := ⟨Double.one⟩
  toAdd := inferInstance
  toSub := inferInstance
  toMul := inferInstance
  toDiv := inferInstance
  toNeg := inferInstance
  toLT := inferInstance
  toLE := inferInstance
  toBEq := inferInstance
  decidableLT := fun x y => inferInstanceAs (Decidable (x < y))
  decidableLE := fun x y => inferInstanceAs (Decidable (x ≤ y))
  num := Double.ofNat
  toNat := fun x => x.toUInt64.toNat
  isFinite := Float.isFinite
  atMost := fun x y => decide (Double.rank x ≤ Double.rank y)
  abs := Float.abs
  sqrt := Float.sqrt
  hypot := Double.hypot
  exp := Float.exp
  log2 := Float.log2
  pi := 3.141592653589793
  sin := Float.sin
  cos := Float.cos
  arcsin := Float.asin
  angle := Float.atan2

end QuantumWorkbench
