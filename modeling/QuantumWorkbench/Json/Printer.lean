import QuantumWorkbench.Json.Value

/-!
# Writing JSON

The characters of a document, without blanks. A string is written between quotes as it is stored, so
what needs an escape gets it when a text is made into a string of a document.
-/

namespace QuantumWorkbench.Json

/-! ## Making documents -/

/-- A character as it stands between quotes: quotes and backslashes are escaped, and control
characters are written by their number. -/
def escape (c : Char) : List Char :=
  if c = '"' || c = '\\' then ['\\', c]
  else if c.toNat < 0x20 then
    ['\\', 'u', '0', '0', Nat.digitChar (c.toNat / 16), Nat.digitChar (c.toNat % 16)]
  else [c]

/-- The characters between the quotes for a text. -/
def escapeText (text : String) : List Char := text.toList.flatMap escape

namespace Value

/-- A text as a document. -/
def ofText (text : String) : Value := .text (escapeText text)

/-- A natural number as a document. -/
def ofNat (n : Nat) : Value := .number ⟨false, Nat.toDigits 10 n, [], none⟩

/-- An integer as a document. -/
def ofInt (k : Int) : Value := .number ⟨k < 0, Nat.toDigits 10 k.natAbs, [], none⟩

/-- Items as a document. -/
def ofList {β : Type} (document : β → Value) (items : List β) : Value := .list (items.map document)

/-- A value as a document; its absence is null. -/
def ofOption {β : Type} (document : β → Value) : Option β → Value
  | some b => document b
  | none => .null

/-- Named fields as a document. -/
def record (fields : List (String × Value)) : Value :=
  .object (fields.map fun field => (escapeText field.1, field.2))

end Value

/-! ## Characters -/

/-- The characters of a number. -/
def Numeral.chars (n : Numeral) : List Char :=
  (if n.negative then ['-'] else []) ++ n.whole ++
    (if n.fraction.isEmpty then [] else '.' :: n.fraction) ++
    match n.exponent with
    | some k => 'e' :: (toString k).toList
    | none => []

/-- A string between quotes. -/
def quote (raw : List Char) : List Char := '"' :: raw ++ ['"']

mutual

/-- The characters of a document. -/
def Value.chars : Value → List Char
  | .null => "null".toList
  | .bool true => "true".toList
  | .bool false => "false".toList
  | .number n => n.chars
  | .text raw => quote raw
  | .list items => '[' :: itemChars items ++ [']']
  | .object fields => '\x7b' :: fieldChars fields ++ ['\x7d']

/-- The characters of items with commas between them. -/
def itemChars : List Value → List Char
  | [] => []
  | [v] => v.chars
  | v :: vs => v.chars ++ ',' :: itemChars vs

/-- The characters of fields with commas between them. -/
def fieldChars : List (List Char × Value) → List Char
  | [] => []
  | [(key, v)] => quote key ++ ':' :: v.chars
  | (key, v) :: fields => quote key ++ ':' :: v.chars ++ ',' :: fieldChars fields

end

/-- The text of a document. -/
def Value.print (v : Value) : String := String.ofList v.chars

end QuantumWorkbench.Json
