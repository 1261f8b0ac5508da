import QuantumWorkbench.Json.Value

/-!
# Reading JSON

A strict reader: one document that fills the whole text, no leading zeros, no trailing commas, no
control characters inside strings. Every step consumes at least one character, so the length of
the text bounds the depth of the recursion.
-/

namespace QuantumWorkbench.Json

/-- The four blanks of JSON. -/
def isBlank (c : Char) : Bool := c = ' ' || c = '\t' || c = '\n' || c = '\r'

/-- The list from its first character that is no blank. -/
def skipBlanks (cs : List Char) : List Char := cs.dropWhile isBlank

/-! ## Leaves -/

/-- The digits before the point: one zero, or digits that do not start with zero. -/
def wholeDigits (cs : List Char) : Option (List Char × List Char) :=
  let (digits, rest) := Decimal.spanDigits cs
  match digits with
  | [] => none
  | '0' :: _ :: _ => none
  | _ => some (digits, rest)

/-- The exponent at the front of a list, if one is written there. -/
def exponentPart : List Char → Option (Option Int × List Char)
  | c :: cs =>
    if c = 'e' || c = 'E' then
      let (negative, cs) := Decimal.spanSign cs
      let (digits, rest) := Decimal.spanDigits cs
      if digits.isEmpty then none
      else
        let n : Int := Decimal.natOfDigits digits
        some (some (if negative then -n else n), rest)
    else some (none, c :: cs)
  | [] => some (none, [])

/-- A number at the front of a list. -/
def numeral (cs : List Char) : Option (Numeral × List Char) := do
  let (negative, cs) :=
    match cs with
    | '-' :: cs => (true, cs)
    | cs => (false, cs)
  let (whole, cs) ← wholeDigits cs
  let (fraction, cs) ←
    match cs with
    | '.' :: cs =>
      let (digits, rest) := Decimal.spanDigits cs
      if digits.isEmpty then none else some (digits, rest)
    | cs => some ([], cs)
  let (exponent, cs) ← exponentPart cs
  some (⟨negative, whole, fraction, exponent⟩, cs)

/-- The rest of a string after its opening quote: the characters up to the closing quote with
their escapes, and what follows it. -/
def rawText : List Char → Option (List Char × List Char)
  | [] => none
  | '"' :: cs => some ([], cs)
  | '\\' :: 'u' :: a :: b :: c :: d :: cs =>
    if [a, b, c, d].all fun h => (hexValue h).isSome then
      (rawText cs).map fun (raw, rest) => ('\\' :: 'u' :: a :: b :: c :: d :: raw, rest)
    else none
  | '\\' :: c :: cs =>
    if (escaped c).isSome then (rawText cs).map fun (raw, rest) => ('\\' :: c :: raw, rest)
    else none
  | c :: cs =>
    if c.toNat < 0x20 || c = '\\' then none
    else (rawText cs).map fun (raw, rest) => (c :: raw, rest)

/-- Drops a fixed word from the front of a list. -/
def dropWord : List Char → List Char → Option (List Char)
  | [], cs => some cs
  | w :: ws, c :: cs => if w = c then dropWord ws cs else none
  | _ :: _, [] => none

/-! ## Documents -/

mutual

/-- A document at the front of a list, after blanks. -/
def value : Nat → List Char → Option (Value × List Char)
  | 0, _ => none
  | fuel + 1, cs =>
    match skipBlanks cs with
    | [] => none
    | 'n' :: cs => (dropWord ['u', 'l', 'l'] cs).map (.null, ·)
    | 't' :: cs => (dropWord ['r', 'u', 'e'] cs).map (.bool true, ·)
    | 'f' :: cs => (dropWord ['a', 'l', 's', 'e'] cs).map (.bool false, ·)
    | '"' :: cs => (rawText cs).map fun (raw, rest) => (.text raw, rest)
    | '[' :: cs =>
      match skipBlanks cs with
      | ']' :: cs => some (.list [], cs)
      | cs => (items fuel cs).map fun (vs, rest) => (.list vs, rest)
    | '{' :: cs =>
      match skipBlanks cs with
      | '}' :: cs => some (.object [], cs)
      | cs => (fields fuel cs).map fun (fs, rest) => (.object fs, rest)
    -- all that is left to try is a number
    | c :: cs => (numeral (c :: cs)).map fun (n, rest) => (.number n, rest)

/-- The items of a list up to and with its closing bracket. -/
def items : Nat → List Char → Option (List Value × List Char)
  | 0, _ => none
  | fuel + 1, cs => do
    let (v, cs) ← value fuel cs
    match skipBlanks cs with
    | ',' :: cs =>
      let (vs, rest) ← items fuel cs
      some (v :: vs, rest)
    | ']' :: cs => some ([v], cs)
    | _ => none

/-- The fields of an object up to and with its closing brace. -/
def fields : Nat → List Char → Option (List (List Char × Value) × List Char)
  | 0, _ => none
  | fuel + 1, cs => do
    match skipBlanks cs with
    | '"' :: cs =>
      let (key, cs) ← rawText cs
      match skipBlanks cs with
      | ':' :: cs =>
        let (v, cs) ← value fuel cs
        match skipBlanks cs with
        | ',' :: cs =>
          let (fs, rest) ← fields fuel cs
          some ((key, v) :: fs, rest)
        | '}' :: cs => some ([(key, v)], cs)
        | _ => none
      | _ => none
    | _ => none

end

/-- Reads a text that holds one document and nothing else. -/
def read? (text : String) : Option Value := do
  let cs := text.toList
  let (v, rest) ← value (2 * cs.length + 2) cs
  if (skipBlanks rest).isEmpty then some v else none

end QuantumWorkbench.Json
