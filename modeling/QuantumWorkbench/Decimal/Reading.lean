import QuantumWorkbench.Scalar.Double
import QuantumWorkbench.Decimal.Shortest

/-!
# Reading decimal numbers

A number is an optional sign followed by digits with an optional point and an optional exponent, or
by the word for an infinite or an undefined value in any case. At least one digit stands beside the
point. The result is the double nearest to the exact value.
-/

namespace QuantumWorkbench.Decimal

/-- The value of a decimal digit. -/
def digitValue (c : Char) : Nat := c.toNat - '0'.toNat

/-- The number that a list of digits spells. -/
def natOfDigits (cs : List Char) : Nat := cs.foldl (fun n c => 10 * n + digitValue c) 0

/-- Splits the leading digits off. -/
def spanDigits (cs : List Char) : List Char × List Char :=
  (cs.takeWhile Char.isDigit, cs.dropWhile Char.isDigit)

/-- Splits an optional sign off; the flag is set by a minus. -/
def spanSign : List Char → Bool × List Char
  | '-' :: cs => (true, cs)
  | '+' :: cs => (false, cs)
  | cs => (false, cs)

/-- A decimal exponent that fills the list: an optional sign and digits. -/
def readExponent (cs : List Char) : Option Int :=
  let (negative, digits) := spanSign cs
  if digits.isEmpty || !digits.all Char.isDigit then none
  else
    let n : Int := natOfDigits digits
    some (if negative then -n else n)

/-- The double nearest to `n · 10^k`. Far beyond the range of doubles the value is infinite or
zero whatever the digits. -/
def toDouble (n : Nat) (k : Int) : Float :=
  let size : Int := (Nat.toDigits 10 n).length
  if n = 0 then 0.0
  else if 400 < size + k then 1.0 / 0.0
  else if size + k < -400 then 0.0
  else Float.ofScientific n (k < 0) k.natAbs

/-- The digits of an unsigned number: before the point, after it, and the exponent. -/
def readUnsigned (cs : List Char) : Option Float :=
  let (whole, rest) := spanDigits cs
  let (fraction, rest) :=
    match rest with
    | '.' :: rest => spanDigits rest
    | rest => ([], rest)
  if whole.isEmpty && fraction.isEmpty then none
  else
    let mantissa := natOfDigits (whole ++ fraction)
    -- the digits after the point are part of the mantissa
    let value (k : Int) := toDouble mantissa (k - fraction.length)
    match rest with
    | [] => some (value 0)
    | c :: rest => if c = 'e' || c = 'E' then (readExponent rest).map value else none

/-- Reads a double that fills the whole text. -/
def read? (s : String) : Option Float :=
  let (negative, cs) := spanSign s.toList
  let word := String.ofList (cs.map Char.toLower)
  let magnitude :=
    if word = "inf" || word = "infinity" then some (1.0 / 0.0)
    else if word = "nan" then some (0.0 / 0.0)
    else readUnsigned cs
  magnitude.map fun x => if negative then -x else x

end QuantumWorkbench.Decimal

namespace QuantumWorkbench

instance : NumberText Float := ⟨Decimal.shortest, Decimal.fixed, Decimal.read?⟩

end QuantumWorkbench
