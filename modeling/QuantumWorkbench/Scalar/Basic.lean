/-!
# Scalars

Amplitudes, angles, fidelities and coefficients are written once over a class of scalars. The
running program uses double precision; reasoning about exact arithmetic uses an ordered field with
the same operations. The class lists operations only, so that nothing in the library depends on a
law that rounded arithmetic breaks.
-/

namespace QuantumWorkbench

/-- A number type with the arithmetic, the comparisons and the elementary functions that circuits
need. -/
class Scalar (α : Type) extends Zero α, One α, Add α, Sub α, Mul α, Div α, Neg α, LT α, LE α,
    BEq α where
  decidableLT : ∀ x y : α, Decidable (x < y)
  decidableLE : ∀ x y : α, Decidable (x ≤ y)
  /-- The scalar nearest to a natural number. -/
  num : Nat → α
  /-- The whole part of a non-negative scalar; zero where there is none. -/
  toNat : α → Nat
  /-- Neither infinite nor undefined. -/
  isFinite : α → Bool
  /-- A total order that refines `≤`, also between values that do not compare. -/
  atMost : α → α → Bool
  abs : α → α
  sqrt : α → α
  /-- The length of the vector with the two given components. -/
  hypot : α → α → α
  exp : α → α
  log2 : α → α
  pi : α
  sin : α → α
  cos : α → α
  arcsin : α → α
  /-- The angle of the point with the given ordinate and abscissa. -/
  angle : α → α → α

namespace Scalar

variable {α : Type} [Scalar α]

instance (x y : α) : Decidable (x < y) := decidableLT x y

instance (x y : α) : Decidable (x ≤ y) := decidableLE x y

/-! ## Constants -/

/-- The scalar two. -/
def two : α := num 2

/-- One half of a scalar. -/
def half (x : α) : α := x / two

/-- Angles and probabilities closer to zero than this count as zero: `10⁻¹⁰`. -/
def tolerance : α := num 1 / num 10000000000

/-- The gap between one and the next larger double: `2⁻⁵²`. -/
def unitGap : α := num 1 / num (1 <<< 52)

/-- `1 / √2`. -/
def invSqrtTwo : α := sqrt two / two

/-! ## Sums and orders -/

/-- The sum of a list from front to back. It starts from negative zero, the neutral element of
rounded addition, so that the sum of negative zeros keeps its sign. -/
def sum (xs : List α) : α := xs.foldl (· + ·) (-0)

/-- Comes strictly before in the total order. -/
@[inline] def before (x y : α) : Bool := !atMost y x

/-- Neither comes before the other in the total order. -/
def sameRank (x y : α) : Bool := atMost x y && atMost y x

end Scalar

/-- How a scalar is written and read as decimal text. -/
class NumberText (α : Type) where
  /-- The fewest digits that read back as the same scalar. -/
  shortest : α → String
  /-- The scalar rounded to a fixed number of decimal places. -/
  fixed : Nat → α → String
  /-- Reads a decimal number that fills the whole text. -/
  read? : String → Option α

end QuantumWorkbench
