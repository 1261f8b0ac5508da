import QuantumWorkbench.SortedMap.Walk

/-!
# Finite maps in key order

A map is the list of its entries with keys strictly increasing. Walking the list visits the entries
in key order, which is the order of every sum and every printed list in this library. The sorting
is part of the type, so two maps with the same entries are equal.
-/

namespace QuantumWorkbench

/-- A finite map from keys to values, listed in key order. -/
structure SortedMap (κ β : Type) [KeyOrder κ] where
  entries : List (κ × β)
  sorted : Entries.Sorted entries

namespace SortedMap

variable {κ β γ : Type} [KeyOrder κ]

/-- The map without entries. -/
def empty : SortedMap κ β := ⟨[], List.Pairwise.nil⟩

instance : EmptyCollection (SortedMap κ β) := ⟨empty⟩

instance : Inhabited (SortedMap κ β) := ⟨empty⟩

/-- Changes the value at a key; the function sees the old value, if there is one. -/
@[specialize] def update (m : SortedMap κ β) (k : κ) (f : Option β → β) : SortedMap κ β :=
  ⟨Entries.update k f m.entries, Entries.sorted_update m.sorted⟩

/-- Sets the value at a key. -/
@[specialize] def insert (m : SortedMap κ β) (k : κ) (b : β) : SortedMap κ β :=
  m.update k fun _ => b

/-- Carries out a list of updates in order; each sees the value that the ones before it left. -/
@[specialize] def updateAll (m : SortedMap κ β) (f : Option β → γ → β) (xs : List (κ × γ)) :
    SortedMap κ β :=
  ⟨Entries.updateAll f m.entries xs,
    Entries.updateAll_eq_updateEach f m.sorted xs ▸ Entries.sorted_updateEach m.sorted xs⟩

/-- The value at a key. -/
@[specialize] def get? (m : SortedMap κ β) (k : κ) : Option β := Entries.find? k m.entries

/-- Whether a key has a value. -/
def contains (m : SortedMap κ β) (k : κ) : Bool := (m.get? k).isSome

/-- The map without the entry at a key. -/
def erase (m : SortedMap κ β) (k : κ) : SortedMap κ β :=
  ⟨Entries.erase k m.entries, Entries.sorted_erase m.sorted⟩

/-- The map of a list of entries; of two with one key the later wins. -/
@[specialize] def ofList (es : List (κ × β)) : SortedMap κ β := empty.updateAll (fun _ b => b) es

/-- The map of every number below a bound to itself. -/
def identity (n : Nat) : SortedMap Nat Nat :=
  ⟨(List.range n).map fun k => (k, k), List.pairwise_map.2 List.pairwise_lt_range⟩

/-- The keys in order. -/
def keys (m : SortedMap κ β) : List κ := m.entries.map Prod.fst

/-- The values in the order of their keys. -/
def values (m : SortedMap κ β) : List β := m.entries.map Prod.snd

/-- The number of entries. -/
def size (m : SortedMap κ β) : Nat := m.entries.length

/-- Whether the map has no entries. -/
def isEmpty (m : SortedMap κ β) : Bool := m.entries.isEmpty

instance [BEq κ] [BEq β] : BEq (SortedMap κ β) := ⟨fun m m' => m.entries == m'.entries⟩

@[ext] theorem ext {m m' : SortedMap κ β} (h : m.entries = m'.entries) : m = m' := by
  cases m; cases m'; cases h; rfl

theorem updateAll_eq_foldl (m : SortedMap κ β) (f : Option β → γ → β) (xs : List (κ × γ)) :
    m.updateAll f xs = xs.foldl (fun m x => m.update x.1 (f · x.2)) m := by
  refine ext ((Entries.updateAll_eq_updateEach f m.sorted xs).trans ?_)
  induction xs generalizing m with
  | nil => rfl
  | cons x xs ih => exact ih (m.update x.1 (f · x.2))

theorem ofList_eq_foldl (es : List (κ × β)) :
    ofList es = es.foldl (fun m e => m.insert e.1 e.2) empty := updateAll_eq_foldl _ _ _

instance [DecidableEq κ] [DecidableEq β] : DecidableEq (SortedMap κ β) := fun m m' =>
  if h : m.entries = m'.entries then isTrue (ext h) else isFalse fun e => h (e ▸ rfl)

end SortedMap

/-- A finite set, listed in order. -/
abbrev SortedSet (κ : Type) [KeyOrder κ] := SortedMap κ Unit

namespace SortedSet

variable {κ : Type} [KeyOrder κ]

/-- The set of the members of a list. -/
def ofList (ks : List κ) : SortedSet κ := SortedMap.ofList (ks.map fun k => (k, ()))

end SortedSet

end QuantumWorkbench
