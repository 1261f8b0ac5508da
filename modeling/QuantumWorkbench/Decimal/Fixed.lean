import QuantumWorkbench.Decimal.Binary

/-!
# Fixed decimal places

The exact value of a double rounded to a number of places, a half going to the even neighbour. The
sign is written also where every digit is zero.
-/

namespace QuantumWorkbench.Decimal

/-- The decimal digits of a natural number, padded with zeros in front to a least length. -/
def paddedDigits (width n : Nat) : String :=
  let digits := Nat.toDigits 10 n
  String.ofList (List.replicate (width - digits.length) '0' ++ digits)

/-- A natural number of units of `10^-places`, with the point set. -/
def placePoint (places n : Nat) : String :=
  if places = 0 then toString n
  else toString (n / Nat.pow 10 places) ++ "." ++ paddedDigits places (n % Nat.pow 10 places)

/-- A double with a fixed number of decimal places. -/
def fixed (places : Nat) (x : Float) : String :=
  match Parts.ofDouble x with
  | .undefined => "NaN"
  | .infinite negative => if negative then "-inf" else "inf"
  | .finite negative m e =>
    let (num, den) := scaledFraction m e places
    (if negative then "-" else "") ++ placePoint places (roundDiv num den)

/-- Puts a plus sign before a number text that has no sign; an undefined value stays bare. -/
def withPlus (text : String) : String :=
  if text == "NaN" || text.toList.head? == some '-' then text else "+" ++ text

end QuantumWorkbench.Decimal
