import QuantumWorkbench.Json.Reader
import QuantumWorkbench.SortedMap

/-!
# Decoding JSON documents

How the parts of a document are read as indices, numbers, texts, lists, records and index-keyed
maps. Each decoder refuses a document of any other form.
-/

namespace QuantumWorkbench.Json.Value

/-- An index. -/
def index? : Value → Option Nat
  | .number n => n.index?
  | _ => none

/-- A finite double. -/
def double? : Value → Option Float
  | .number n => n.double?
  | _ => none

/-- A text. -/
def string? : Value → Option String
  | .text raw => unescape? raw
  | _ => none

/-- A list of which every item is decoded. -/
def listOf? {β : Type} (decode : Value → Option β) : Value → Option (List β)
  | .list items => items.mapM decode
  | _ => none

/-- Adds a field to those of a record. A field of another name is ignored, a repeated one is
refused. -/
def setField (names : List String) (found : List (String × Value)) (field : List Char × Value) :
    Option (List (String × Value)) := do
  let name ← unescape? field.1
  if !names.contains name then some found
  else if (found.lookup name).isSome then none
  else some (found ++ [(name, field.2)])

/-- The fields of a record in the order of their names: from an object by name, or from a list by
position. A field may be missing; a list with more items than names is refused. -/
def record? (names : List String) : Value → Option (List (Option Value))
  | .object fields => do
    let found ← fields.foldlM (setField names) []
    some (names.map fun name => found.lookup name)
  | .list items =>
    if names.length < items.length then none
    else some (items.map some ++ List.replicate (names.length - items.length) none)
  | _ => none

/-- An index written as the key of an object: plain digits without escapes. -/
def indexKey? (raw : List Char) : Option Nat := do
  let (n, rest) ← numeral raw
  if rest.isEmpty then n.index? else none

/-- An object whose keys are indices; of a repeated key the last value counts. -/
def indexMap? {β : Type} (decode : Value → Option β) : Value → Option (SortedMap Nat β)
  | .object fields =>
    fields.foldlM (fun m field => do
      let key ← indexKey? field.1
      let item ← decode field.2
      some (m.insert key item)) SortedMap.empty
  | _ => none

/-- An object with arbitrary keys; of a repeated key the last value counts. -/
def textMap? {β : Type} (decode : Value → Option β) : Value → Option (SortedMap String β)
  | .object fields =>
    fields.foldlM (fun m field => do
      let key ← unescape? field.1
      let item ← decode field.2
      some (m.insert key item)) SortedMap.empty
  | _ => none

end QuantumWorkbench.Json.Value
