import QuantumWorkbench.SortedMap

/-!
# Grouping by key

The values of a list of entries, gathered by key in their order. Updating every key once by all its
values does what updating by one value after another does.
-/

namespace QuantumWorkbench

namespace Entries

variable {κ β γ : Type} [KeyOrder κ]

theorem find?_map (f : β → γ) (k : κ) (es : List (κ × β)) :
    find? k (es.map fun e => (e.1, f e.2)) = (find? k es).map f := by
  induction es with
  | nil => rfl
  | cons head es ih =>
    simp only [List.map_cons, find?, ih]
    split
    · rfl
    · split <;> rfl

/-- In a list in order at most one entry has a given key. -/
theorem filter_key [DecidableEq κ] (k : κ) {es : List (κ × β)} (h : Sorted es) :
    es.filter (fun e => e.1 = k) = (find? k es).toList.map fun b => (k, b) := by
  induction es with
  | nil => rfl
  | cons head es ih =>
    obtain ⟨k', b⟩ := head
    obtain ⟨hhead, htail⟩ := List.pairwise_cons.1 h
    by_cases hlt : KeyOrder.lt k k'
    · have hnone : ∀ e ∈ (k', b) :: es, KeyOrder.lt k e.1 := fun e he => by
        rcases List.mem_cons.1 he with rfl | he
        · exact hlt
        · exact KeyOrder.trans hlt (hhead e he)
      rw [find?_eq_none_of_lt hnone]
      refine List.filter_eq_nil_iff.2 fun e he hk => ?_
      exact KeyOrder.irrefl k ((of_decide_eq_true hk) ▸ hnone e he)
    · by_cases hgt : KeyOrder.lt k' k
      · have hne : k' ≠ k := fun hk => KeyOrder.irrefl k (hk ▸ hgt)
        simp [find?, hlt, hgt, hne, ih htail]
      · obtain rfl := KeyOrder.eq_of_not_lt hlt hgt
        have hnil : es.filter (fun e => e.1 = k) = [] :=
          List.filter_eq_nil_iff.2 fun e he hk =>
            KeyOrder.irrefl k ((of_decide_eq_true hk) ▸ hhead e he)
        simp [find?, KeyOrder.irrefl, hnil]

end Entries

namespace SortedMap

variable {κ β γ δ : Type} [KeyOrder κ]

theorem ext_get? {m m' : SortedMap κ β} (h : ∀ k, m.get? k = m'.get? k) : m = m' :=
  ext (Entries.eq_of_find?_eq m.sorted m'.sorted h)

theorem get?_updateAll [DecidableEq κ] (m : SortedMap κ β) (f : Option β → γ → β)
    (xs : List (κ × γ)) (k : κ) :
    (m.updateAll f xs).get? k =
      (xs.filter fun x => x.1 = k).foldl (fun old x => some (f old x.2)) (m.get? k) := by
  have h := Entries.find?_updateEach f k m.entries xs
  rwa [← Entries.updateAll_eq_updateEach f m.sorted] at h

/-- The map with a function applied to every value. -/
def mapValues (m : SortedMap κ β) (f : β → γ) : SortedMap κ γ :=
  ⟨m.entries.map fun e => (e.1, f e.2), List.pairwise_map.2 (m.sorted.imp fun h => h)⟩

theorem get?_mapValues (m : SortedMap κ β) (f : β → γ) (k : κ) :
    (m.mapValues f).get? k = (m.get? k).map f := Entries.find?_map f k m.entries

/-- The values of a list of entries by key, in their order. -/
@[specialize] def group (xs : List (κ × γ)) : SortedMap κ (List γ) :=
  ((empty : SortedMap κ (List γ)).updateAll (fun old c => c :: old.getD []) xs).mapValues
    List.reverse

/-- Folding over the values of a list of entries. -/
theorem foldl_snd {ι : Type} (f : δ → γ → δ) (xs : List (ι × γ)) (d : δ) :
    xs.foldl (fun d x => f d x.2) d = (xs.map Prod.snd).foldl f d := by
  rw [List.foldl_map]

theorem foldl_gather (cs : List γ) (gathered : List γ) :
    cs.foldl (fun (old : Option (List γ)) c => some (c :: old.getD [])) (some gathered) =
      some (cs.reverse ++ gathered) := by
  induction cs generalizing gathered with
  | nil => rfl
  | cons c cs ih =>
    rw [List.foldl_cons, Option.getD_some, ih, List.reverse_cons, List.append_assoc]
    rfl

theorem get?_group [DecidableEq κ] (xs : List (κ × γ)) (k : κ) :
    (group xs).get? k =
      match (xs.filter fun x => x.1 = k).map Prod.snd with
      | [] => none
      | cs => some cs := by
  rw [group, get?_mapValues, get?_updateAll,
    foldl_snd fun (old : Option (List γ)) c => some (c :: old.getD [])]
  cases (xs.filter fun x => x.1 = k).map Prod.snd with
  | nil => rfl
  | cons c cs =>
    have h : (empty : SortedMap κ (List γ)).get? k = none := rfl
    rw [List.foldl_cons, h, Option.getD_none, foldl_gather]
    simp

/-- Updating every key once by the list of its values, where that amounts to one value after
another. -/
theorem updateAll_group (m : SortedMap κ β) (f : Option β → γ → β) (g : Option β → List γ → β)
    (hg : ∀ old c cs, g old (c :: cs) = cs.foldl (fun b c => f (some b) c) (f old c))
    (xs : List (κ × γ)) : m.updateAll g (group xs).entries = m.updateAll f xs := by
  classical
  refine ext_get? fun k => ?_
  -- past the first value of a key there is always an old one
  have hsome : ∀ (cs : List γ) (b : β), cs.foldl (fun old c => some (f old c)) (some b) =
      some (cs.foldl (fun b c => f (some b) c) b) := by
    intro cs
    induction cs with
    | nil => intro b; rfl
    | cons c cs ih => intro b; exact ih (f (some b) c)
  have hgroup := get?_group xs k
  rw [get?_updateAll, get?_updateAll, Entries.filter_key k (group xs).sorted, ← get?, hgroup,
    foldl_snd fun old c => some (f old c)]
  cases (xs.filter fun x => x.1 = k).map Prod.snd with
  | nil => rfl
  | cons c cs =>
    rw [List.foldl_cons, hsome, ← hg]
    rfl

end SortedMap

end QuantumWorkbench
