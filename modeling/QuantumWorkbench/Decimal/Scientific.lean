import QuantumWorkbench.Decimal.Binary

/-!
# Scientific notation

A double rounded to a number of significant digits or of decimal places, written with one digit
before the point and a power of ten. Zeros at the end of the fraction are left out, and so is the
sign of zero. The rounding is exact, a half going to the even neighbour.
-/

namespace QuantumWorkbench.Decimal

/-- Digits in units of a power of ten. -/
def placeExponent (negative : Bool) (digits : Nat) (exponent : Int) : String :=
  let cs := Nat.toDigits 10 digits
  let top := exponent + Int.ofNat cs.length - 1
  match (cs.reverse.dropWhile fun c => c = '0').reverse with
  | [] => "0"
  | d :: ds =>
    (if negative then "-" else "") ++ String.ofList (if ds.isEmpty then [d] else d :: '.' :: ds) ++
      "e" ++ toString top

/-- A dyadic number rounded to a number of decimal places, which may be negative. -/
def roundPlaces (negative : Bool) (mantissa : Nat) (exponent places : Int) : String :=
  let (num, den) := scaledFraction mantissa exponent places
  placeExponent negative (roundDiv num den) (-places)

/-- The number of decimal places that leaves a positive dyadic number with the given number of
digits, or with one more where rounding carries. The logarithm of two gives it up to one. -/
def placesFor (digits mantissa : Nat) (exponent : Int) : Int :=
  let guess : Int :=
    Int.ofNat digits - 1 - (Int.ofNat (Nat.log2 mantissa) + exponent) * 30103 / 100000
  let (num, den) := scaledFraction mantissa exponent guess
  -- the guess is one off where a power of ten lies between the number and the power of two below it
  if num / den < Nat.pow 10 (digits - 1) then guess + 1
  else if Nat.pow 10 digits ≤ num / den then guess - 1
  else guess

/-- A double with a number of significant digits. -/
def significant (digits : Nat) (x : Float) : String :=
  match Parts.ofDouble x with
  | .undefined => "NaN"
  | .infinite negative => if negative then "-inf" else "inf"
  | .finite _ 0 _ => "0"
  | .finite negative m e => roundPlaces negative m e (placesFor digits m e)

/-- A double with a number of decimal places. -/
def rounded (places : Nat) (x : Float) : String :=
  match Parts.ofDouble x with
  | .undefined => "NaN"
  | .infinite negative => if negative then "-inf" else "inf"
  | .finite negative m e => roundPlaces negative m e places

end QuantumWorkbench.Decimal
