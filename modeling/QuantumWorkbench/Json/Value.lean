import QuantumWorkbench.Decimal.Reading

/-!
# JSON documents

The tree of a JSON text. Numbers keep their digits and strings keep their escapes, so a part of a
document that nobody asks for is never converted: a number too large for a double or an unpaired
surrogate is a fault only where its value is wanted.
-/

namespace QuantumWorkbench.Json

/-- A number by its digits. The fraction is empty exactly where the text has no point. -/
structure Numeral where
  negative : Bool
  whole : List Char
  fraction : List Char
  exponent : Option Int

/-- A JSON document. Strings and keys are the characters between the quotes. -/
inductive Value where
  | null
  | bool (b : Bool)
  | number (n : Numeral)
  | text (raw : List Char)
  | list (items : List Value)
  | object (fields : List (List Char × Value))

/-! ## Numbers -/

/-- Appends digits to a number while it stays within 64 bits; the rest is handed back. -/
def absorb (n : Nat) : List Char → Nat × List Char
  | [] => (n, [])
  | c :: cs =>
    let n' := 10 * n + Decimal.digitValue c
    if n' < UInt64.size then absorb n' cs else (n, c :: cs)

/-- A double scaled by a power of ten, in steps that the largest power of ten can express. An
infinite result is refused. -/
def scale (x : Float) (k : Int) : Nat → Option Float
  | 0 => some x
  | steps + 1 =>
    if k.natAbs ≤ 308 then
      if 0 ≤ k then
        let y := x * Float.ofScientific 1 false k.natAbs
        if y.isInf then none else some y
      else some (x / Float.ofScientific 1 false k.natAbs)
    else if x == 0 then some x
    else if 0 ≤ k then none
    else scale (x / Float.ofScientific 1 false 308) (k + 308) steps

namespace Numeral

/-- Whether the number is written without a point and without an exponent. -/
def isWhole (n : Numeral) : Bool := n.fraction.isEmpty && n.exponent.isNone

/-- A number in the range of indices, written as a plain natural number. -/
def index? (n : Numeral) : Option Nat :=
  let value := Decimal.natOfDigits n.whole
  if n.negative || !n.isWhole || UInt64.size ≤ value then none else some value

/-- The number as a double. As many leading digits as fit a 64-bit word are converted, then scaled
by a power of ten; the digits beyond them count only by their number. -/
def double? (n : Numeral) : Option Float :=
  let (first, skipped) := absorb 0 n.whole
  let (digits, unread) := absorb first n.fraction
  let read : Int := Int.ofNat n.fraction.length - Int.ofNat unread.length
  let places : Int := Int.ofNat skipped.length - read
  let magnitude :=
    if n.isWhole && skipped.isEmpty then some (Float.ofNat digits)
    else scale (Float.ofNat digits) (places + n.exponent.getD 0) 4
  magnitude.map fun x => if n.negative then -x else x

end Numeral

/-! ## Strings -/

/-- The value of a hexadecimal digit. -/
def hexValue (c : Char) : Option Nat :=
  if c.isDigit then some (c.toNat - '0'.toNat)
  else if 'a' ≤ c && c ≤ 'f' then some (c.toNat - 'a'.toNat + 10)
  else if 'A' ≤ c && c ≤ 'F' then some (c.toNat - 'A'.toNat + 10)
  else none

/-- Four hexadecimal digits at the front of a list. -/
def hexQuad : List Char → Option (Nat × List Char)
  | a :: b :: c :: d :: cs => do
    let a ← hexValue a
    let b ← hexValue b
    let c ← hexValue c
    let d ← hexValue d
    some (((a * 16 + b) * 16 + c) * 16 + d, cs)
  | _ => none

/-- The character that a one-letter escape stands for. -/
def escaped (c : Char) : Option Char :=
  if c = '"' || c = '\\' || c = '/' then some c
  else if c = 'b' then some '\x08'
  else if c = 'f' then some '\x0c'
  else if c = 'n' then some '\n'
  else if c = 'r' then some '\r'
  else if c = 't' then some '\t'
  else none

/-- Whether a 16-bit unit is the first half of a pair. -/
def isHighUnit (n : Nat) : Bool := 0xD800 ≤ n && n < 0xDC00

/-- Whether a 16-bit unit is the second half of a pair. -/
def isLowUnit (n : Nat) : Bool := 0xDC00 ≤ n && n < 0xE000

/-- One character of a string at the front of a non-empty list. Half a pair is no character. -/
def nextChar : List Char → Option (Char × List Char)
  | '\\' :: 'u' :: cs => do
    let (unit, cs) ← hexQuad cs
    if isHighUnit unit then
      match cs with
      | '\\' :: 'u' :: cs =>
        let (low, cs) ← hexQuad cs
        if isLowUnit low then
          some (Char.ofNat (0x10000 + (unit - 0xD800) * 0x400 + (low - 0xDC00)), cs)
        else none
      | _ => none
    else if isLowUnit unit then none
    else some (Char.ofNat unit, cs)
  | '\\' :: c :: cs => (escaped c).map (·, cs)
  | c :: cs => some (c, cs)
  | [] => none

/-- The characters that a string stands for, at most as many as the fuel. -/
def unescapeChars : Nat → List Char → Option (List Char)
  | _, [] => some []
  | 0, _ => none
  | fuel + 1, cs => do
    let (c, rest) ← nextChar cs
    (unescapeChars fuel rest).map (c :: ·)

/-- The text that the characters between two quotes stand for. -/
def unescape? (raw : List Char) : Option String :=
  (unescapeChars raw.length raw).map String.ofList

end QuantumWorkbench.Json
