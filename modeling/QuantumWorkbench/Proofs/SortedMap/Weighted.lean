import Mathlib
import QuantumWorkbench.Proofs.Exact
import QuantumWorkbench.Proofs.SortedMap

/-!
# Weighted sums over maps

The values of a map, each weighted by its key, add up to a number. Adding to the value at a key adds
its share to that number, wherever the key stands in the order and whether it is new or not. So a
map that is filled by additions has the sum of everything that was added.
-/

namespace QuantumWorkbench.SortedMap

variable {κ : Type} [KeyOrder κ]

/-- The sum of the values of a map, each weighted by its key. -/
noncomputable def weighted (w : κ → ℝ) (m : SortedMap κ ℝ) : ℝ :=
  (m.entries.map fun e => e.2 * w e.1).sum

@[simp] theorem weighted_empty (w : κ → ℝ) : (empty : SortedMap κ ℝ).weighted w = 0 := rfl

theorem weighted_sub (w w' : κ → ℝ) (m : SortedMap κ ℝ) :
    m.weighted (fun k => w k - w' k) = m.weighted w - m.weighted w' := by
  simp only [weighted, mul_sub]
  exact Multiset.sum_map_sub (m := (m.entries : Multiset (κ × ℝ)))

/-- **Adding to the value at a key** adds its share. -/
theorem weighted_update_add (w : κ → ℝ) (m : SortedMap κ ℝ) (k : κ) (x : ℝ) :
    (m.update k fun old => old.getD 0 + x).weighted w = m.weighted w + x * w k := by
  obtain ⟨before, after, hentries, hupdate, -⟩ := Entries.exists_split k m.sorted
  generalize Entries.find? k m.entries = old at hentries hupdate
  simp only [weighted, update, hupdate]
  rw [hentries]
  -- the entry at the key stands in the middle, where there is one
  cases old with
  | none =>
    simp only [Option.getD_none, Option.toList_none, List.map_nil, List.append_nil,
      List.map_append, List.map_cons, List.sum_append, List.sum_cons]
    ring
  | some b =>
    simp only [Option.getD_some, Option.toList_some, List.map_cons, List.map_nil,
      List.map_append, List.sum_append, List.sum_cons, List.sum_nil]
    ring

/-- **Filling a map by additions** adds up all shares. -/
theorem weighted_updateAll_add (w : κ → ℝ) (m : SortedMap κ ℝ) (xs : List (κ × ℝ)) :
    (m.updateAll (fun old x => old.getD 0 + x) xs).weighted w =
      m.weighted w + (xs.map fun e => e.2 * w e.1).sum := by
  rw [updateAll_eq_foldl]
  induction xs generalizing m with
  | nil => simp
  | cons e xs ih =>
    rw [List.foldl_cons, ih, weighted_update_add, List.map_cons, List.sum_cons, add_assoc]

end QuantumWorkbench.SortedMap
