import QuantumWorkbench.Decimal.Fixed

/-!
# Shortest decimal text

A double is written with the fewest digits that read back as the same double and, among those, with
the digits nearest to its exact value. There is never an exponent: large numbers are padded with
zeros before the point, small ones after it.
-/

namespace QuantumWorkbench.Decimal

/-- The exact numbers that round to one double: its value and the two ends of the interval, all over
one denominator. The ends belong to the interval where the mantissa is even. -/
structure Interval where
  low : Nat
  value : Nat
  high : Nat
  den : Nat
  closed : Bool

/-- The interval of a positive double. Below a power of two the gap is half as wide, except at the
smallest exponent. -/
def Interval.ofParts (mantissa : Nat) (exponent : Int) : Interval :=
  let below := if mantissa = leadingBit && exponent != -1074 then 1 else 2
  let (scale, den) := scaledFraction 1 (exponent - 2) 0
  { low := (4 * mantissa - below) * scale
    value := 4 * mantissa * scale
    high := (4 * mantissa + 2) * scale
    den := den
    closed := mantissa % 2 = 0 }

/-- Whether `n · 10^k` lies in the interval. -/
def Interval.holds (iv : Interval) (n : Nat) (k : Int) : Bool :=
  let point := n * Nat.pow 10 k.toNat * iv.den
  let up := Nat.pow 10 (-k).toNat
  if iv.closed then iv.low * up ≤ point && point ≤ iv.high * up
  else iv.low * up < point && point < iv.high * up

/-- The multiple of `10^k` nearest to the value among its two neighbours on that grid that lie in
the interval; of two equally near the upper one. -/
def Interval.nearest? (iv : Interval) (k : Int) : Option Nat :=
  let unit := iv.den * Nat.pow 10 k.toNat
  let value := iv.value * Nat.pow 10 (-k).toNat
  let below := value / unit
  let above := below + 1
  match iv.holds below k, iv.holds above k with
  | true, true => some (if unit ≤ 2 * (value % unit) then above else below)
  | true, false => some below
  | false, true => some above
  | false, false => none

/-- The exponent of the leading decimal digit of a positive fraction. -/
def leadingExponent (num den : Nat) : Int :=
  if den ≤ num then ((Nat.toDigits 10 (num / den)).length : Int) - 1
  else
    -- A fraction below one has as many places as the largest whole number below its reciprocal
    -- has digits.
    Int.negOfNat (Nat.toDigits 10 ((den - 1) / num)).length

/-- The digits on the coarsest grid that holds a number of the interval, with that grid's
exponent. Seventeen digits always suffice. -/
def Interval.coarsest (iv : Interval) (top : Int) : Nat → Nat → Option (Nat × Int)
  | 0, _ => none
  | fuel + 1, used =>
    let k := top - used
    match iv.nearest? k with
    | some n => some (n, k)
    | none => iv.coarsest top fuel (used + 1)

/-- The shortest digits of a positive double and the power of ten of their last digit. -/
def shortestDigits (mantissa : Nat) (exponent : Int) : Nat × Int :=
  let iv := Interval.ofParts mantissa exponent
  let top := leadingExponent iv.value iv.den
  (iv.coarsest (top + 1) 19 0).getD (0, 0)

/-- `n · 10^k` without an exponent. -/
def positional (n : Nat) (k : Int) : String :=
  if 0 ≤ k then toString n ++ String.ofList (List.replicate k.toNat '0')
  else placePoint (-k).toNat n

/-- A double by its shortest decimal text. -/
def shortest (x : Float) : String :=
  match Parts.ofDouble x with
  | .undefined => "NaN"
  | .infinite negative => if negative then "-inf" else "inf"
  | .finite negative m e =>
    let body := if m = 0 then "0" else
      let (n, k) := shortestDigits m e
      positional n k
    (if negative then "-" else "") ++ body

end QuantumWorkbench.Decimal
