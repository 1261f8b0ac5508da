/-!
# Doubles as exact numbers

A finite double is `± mantissa · 2^exponent` with natural-number mantissa. Everything that is
printed or read is computed from this form in exact arithmetic.
-/

namespace QuantumWorkbench.Decimal

/-- A double taken apart: undefined, infinite, or an exact dyadic number. -/
inductive Parts where
  | undefined
  | infinite (negative : Bool)
  | finite (negative : Bool) (mantissa : Nat) (exponent : Int)

/-- The leading bit of the mantissa of a normal double: the fraction fills the fifty-two bits
below it. -/
def leadingBit : Nat := 1 <<< 52

/-- Takes the 64 bits apart: sign, eleven exponent bits, fifty-two fraction bits. -/
def Parts.ofDouble (x : Float) : Parts :=
  let bits := x.toBits.toNat
  let negative := bits.testBit 63
  let field : Nat := bits / leadingBit % 2048
  let fraction := bits % leadingBit
  -- the largest exponent is for values that are not finite, the smallest has no leading bit
  if field = 2047 then
    if fraction = 0 then .infinite negative else .undefined
  else if field = 0 then .finite negative fraction (-1074)
  else .finite negative (leadingBit + fraction) (Int.ofNat field - 1075)

/-- The numerator and the denominator of `mantissa · 2^exponent · 10^places`. -/
def scaledFraction (mantissa : Nat) (exponent places : Int) : Nat × Nat :=
  (mantissa * Nat.pow 2 exponent.toNat * Nat.pow 10 places.toNat,
    Nat.pow 2 (-exponent).toNat * Nat.pow 10 (-places).toNat)

/-- A quotient rounded to the nearest natural number, a half going to the even neighbour. -/
def roundDiv (num den : Nat) : Nat :=
  let q := num / den
  let twice := 2 * (num % den)
  if twice < den then q
  else if den < twice then q + 1
  else if q % 2 = 0 then q else q + 1

/-- The quotient is off by at most half a unit. -/
theorem two_mul_roundDiv_mul_le (num : Nat) {den : Nat} (hden : 0 < den) :
    2 * (roundDiv num den * den) ≤ 2 * num + den ∧
      2 * num ≤ 2 * (roundDiv num den * den) + den := by
  have hmod : num % den < den := Nat.mod_lt _ hden
  have hdiv : num / den * den + num % den = num := by
    rw [Nat.mul_comm]; exact Nat.div_add_mod num den
  have hstep : (num / den + 1) * den = num / den * den + den := Nat.succ_mul _ _
  unfold roundDiv
  dsimp only
  -- below a half, above a half, and a half that goes down or up
  split
  · omega
  · split
    · rw [hstep]; omega
    · split
      · omega
      · rw [hstep]; omega

end QuantumWorkbench.Decimal
