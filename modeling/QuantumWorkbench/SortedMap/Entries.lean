/-!
# Entries in key order

Lists of keys with values, the keys strictly increasing: changing the value at a key, looking a key
up and leaving it out. Two such lists with the same values at every key are equal.
-/

namespace QuantumWorkbench

/-- A strict total order on keys. -/
class KeyOrder (κ : Type) where
  lt : κ → κ → Prop
  decidableLt : ∀ a b, Decidable (lt a b)
  irrefl : ∀ a, ¬ lt a a
  trans : ∀ {a b c}, lt a b → lt b c → lt a c
  eq_of_not_lt : ∀ {a b}, ¬ lt a b → ¬ lt b a → a = b

instance {κ : Type} [KeyOrder κ] (a b : κ) : Decidable (KeyOrder.lt a b) :=
  KeyOrder.decidableLt a b

instance : KeyOrder Nat where
  lt a b := a < b
  decidableLt a b := inferInstanceAs (Decidable (a < b))
  irrefl := Nat.lt_irrefl
  trans := Nat.lt_trans
  eq_of_not_lt h h' := Nat.le_antisymm (Nat.not_lt.1 h') (Nat.not_lt.1 h)

instance : KeyOrder String where
  lt a b := a < b
  decidableLt a b := inferInstanceAs (Decidable (a < b))
  irrefl := String.lt_irrefl
  trans := String.lt_trans
  eq_of_not_lt h h' := String.le_antisymm (String.not_lt.1 h') (String.not_lt.1 h)

/-- Pairs of indices are ordered by the first component, then by the second. -/
instance : KeyOrder (Nat × Nat) where
  lt a b := a.1 < b.1 ∨ a.1 = b.1 ∧ a.2 < b.2
  decidableLt a b := inferInstanceAs (Decidable (a.1 < b.1 ∨ a.1 = b.1 ∧ a.2 < b.2))
  irrefl a h := by omega
  trans h h' := by omega
  eq_of_not_lt {a b} h h' := Prod.ext (by omega) (by omega)

/-! ## Entry lists -/

namespace Entries

variable {κ β γ : Type} [KeyOrder κ]

/-- Keys strictly increase along the list. -/
def Sorted (es : List (κ × β)) : Prop := es.Pairwise fun a b => KeyOrder.lt a.1 b.1

/-- Changes the value at a key, which is placed in order where it is new. -/
@[specialize] def update (k : κ) (f : Option β → β) : List (κ × β) → List (κ × β)
  | [] => [(k, f none)]
  | (k', b) :: es =>
    if KeyOrder.lt k k' then (k, f none) :: (k', b) :: es
    else if KeyOrder.lt k' k then (k', b) :: update k f es
    else (k', f (some b)) :: es

/-- The value at a key. -/
@[specialize] def find? (k : κ) : List (κ × β) → Option β
  | [] => none
  | (k', b) :: es =>
    if KeyOrder.lt k k' then none
    else if KeyOrder.lt k' k then find? k es
    else some b

/-- The entries without the one at a key. -/
def erase (k : κ) : List (κ × β) → List (κ × β)
  | [] => []
  | (k', b) :: es =>
    if KeyOrder.lt k k' then (k', b) :: es
    else if KeyOrder.lt k' k then (k', b) :: erase k es
    else es

theorem key_of_mem_update {k : κ} {f : Option β → β} {es : List (κ × β)} {e : κ × β}
    (h : e ∈ update k f es) : e.1 = k ∨ ∃ e' ∈ es, e'.1 = e.1 := by
  induction es with
  | nil => simp [update] at h; exact Or.inl (by rw [h])
  | cons head es ih =>
    obtain ⟨k', b⟩ := head
    unfold update at h
    split at h
    · rcases List.mem_cons.1 h with rfl | h
      · exact Or.inl rfl
      · exact Or.inr ⟨e, h, rfl⟩
    · split at h
      · rcases List.mem_cons.1 h with rfl | h
        · exact Or.inr ⟨_, List.mem_cons_self, rfl⟩
        · rcases ih h with h | ⟨e', he', h⟩
          · exact Or.inl h
          · exact Or.inr ⟨e', List.mem_cons_of_mem _ he', h⟩
      · rcases List.mem_cons.1 h with rfl | h
        · exact Or.inr ⟨(k', b), List.mem_cons_self, rfl⟩
        · exact Or.inr ⟨e, List.mem_cons_of_mem _ h, rfl⟩

theorem mem_of_mem_erase {k : κ} {es : List (κ × β)} {e : κ × β}
    (h : e ∈ erase k es) : e ∈ es := by
  induction es with
  | nil => exact h
  | cons head es ih =>
    obtain ⟨k', b⟩ := head
    unfold erase at h
    split at h
    · exact h
    · split at h
      · rcases List.mem_cons.1 h with rfl | h
        · exact List.mem_cons_self
        · exact List.mem_cons_of_mem _ (ih h)
      · exact List.mem_cons_of_mem _ h

theorem sorted_update {k : κ} {f : Option β → β} {es : List (κ × β)} (h : Sorted es) :
    Sorted (update k f es) := by
  induction es with
  | nil => exact List.pairwise_singleton _ _
  | cons head es ih =>
    obtain ⟨k', b⟩ := head
    obtain ⟨hhead, htail⟩ := List.pairwise_cons.1 h
    unfold update
    split
    · next hlt =>
      -- a new first entry, whose key lies below the old first key
      refine List.pairwise_cons.2 ⟨fun e he => ?_, h⟩
      rcases List.mem_cons.1 he with rfl | he
      · exact hlt
      · exact KeyOrder.trans hlt (hhead e he)
    · split
      · next hgt =>
        -- the change takes place behind the first entry
        refine List.pairwise_cons.2 ⟨fun e he => ?_, ih htail⟩
        rcases key_of_mem_update he with hk | ⟨e', he', hk⟩
        · rw [hk]; exact hgt
        · rw [← hk]; exact hhead e' he'
      · exact List.pairwise_cons.2 ⟨hhead, htail⟩

theorem sorted_erase {k : κ} {es : List (κ × β)} (h : Sorted es) : Sorted (erase k es) := by
  induction es with
  | nil => exact h
  | cons head es ih =>
    obtain ⟨k', b⟩ := head
    obtain ⟨hhead, htail⟩ := List.pairwise_cons.1 h
    unfold erase
    split
    · exact h
    · split
      · exact List.pairwise_cons.2 ⟨fun e he => hhead e (mem_of_mem_erase he), ih htail⟩
      · exact htail

/-! ## Looking up after an update -/

theorem not_lt_of_lt {a b : κ} (h : KeyOrder.lt a b) : ¬ KeyOrder.lt b a :=
  fun h' => KeyOrder.irrefl a (KeyOrder.trans h h')

theorem find?_update_self (k : κ) (f : Option β → β) (es : List (κ × β)) :
    find? k (update k f es) = some (f (find? k es)) := by
  induction es with
  | nil => simp [update, find?, KeyOrder.irrefl]
  | cons head es ih =>
    obtain ⟨k', b⟩ := head
    unfold update
    by_cases hlt : KeyOrder.lt k k'
    · simp [find?, hlt, KeyOrder.irrefl]
    · by_cases hgt : KeyOrder.lt k' k
      · simp [find?, hlt, hgt, ih]
      · simp [find?, hlt, hgt]

theorem find?_update_of_ne {k k' : κ} (h : k ≠ k') (f : Option β → β) (es : List (κ × β)) :
    find? k (update k' f es) = find? k es := by
  -- of two different keys one lies below the other
  have hne : ¬ KeyOrder.lt k k' → KeyOrder.lt k' k := fun hn =>
    Decidable.byContradiction fun hn' => h (KeyOrder.eq_of_not_lt hn hn')
  induction es with
  | nil =>
    by_cases hlt : KeyOrder.lt k k'
    · simp [update, find?, hlt]
    · simp [update, find?, hlt, hne hlt]
  | cons head es ih =>
    obtain ⟨k₁, b⟩ := head
    unfold update
    by_cases h₁ : KeyOrder.lt k' k₁
    · by_cases hlt : KeyOrder.lt k k'
      · simp [find?, h₁, hlt, KeyOrder.trans hlt h₁]
      · simp [find?, h₁, hlt, hne hlt]
    · by_cases h₂ : KeyOrder.lt k₁ k'
      · simp [find?, h₁, h₂, ih]
      · have heq : k₁ = k' := KeyOrder.eq_of_not_lt h₂ h₁
        subst heq
        by_cases hlt : KeyOrder.lt k k₁
        · simp [find?, h₁, hlt]
        · simp [find?, h₁, hlt, hne hlt]

theorem find?_eq_none_of_lt {k : κ} {es : List (κ × β)} (h : ∀ e ∈ es, KeyOrder.lt k e.1) :
    find? k es = none := by
  cases es with
  | nil => rfl
  | cons head es => simp [find?, h head List.mem_cons_self]

/-- Two lists in order with the same values at every key are equal. -/
theorem eq_of_find?_eq {es es' : List (κ × β)} (h : Sorted es) (h' : Sorted es')
    (heq : ∀ k, find? k es = find? k es') : es = es' := by
  induction es generalizing es' with
  | nil =>
    cases es' with
    | nil => rfl
    | cons head' es' =>
      have := heq head'.1
      simp [find?, KeyOrder.irrefl] at this
  | cons head es ih =>
    obtain ⟨hhead, htail⟩ := List.pairwise_cons.1 h
    cases es' with
    | nil =>
      have := heq head.1
      simp [find?, KeyOrder.irrefl] at this
    | cons head' es' =>
      obtain ⟨hhead', htail'⟩ := List.pairwise_cons.1 h'
      -- the smaller of two different first keys would be found in one list only
      have hkey : head.1 = head'.1 := by
        refine KeyOrder.eq_of_not_lt (fun hlt => ?_) (fun hgt => ?_)
        · have := heq head.1
          simp [find?, KeyOrder.irrefl, hlt] at this
        · have := heq head'.1
          simp [find?, KeyOrder.irrefl, hgt] at this
      have hval : head.2 = head'.2 := by
        have := heq head.1
        simpa [find?, KeyOrder.irrefl, ← hkey] using this
      have hrest : es = es' := by
        refine ih htail htail' fun k => ?_
        by_cases hgt : KeyOrder.lt head.1 k
        · have := heq k
          simpa [find?, ← hkey, hgt, not_lt_of_lt hgt] using this
        · -- a key that is not above the first one is in neither rest
          have hall : ∀ e ∈ es, KeyOrder.lt k e.1 := fun e he => by
            by_cases hlt : KeyOrder.lt k head.1
            · exact KeyOrder.trans hlt (hhead e he)
            · rw [KeyOrder.eq_of_not_lt hlt hgt]; exact hhead e he
          have hall' : ∀ e ∈ es', KeyOrder.lt k e.1 := fun e he => by
            by_cases hlt : KeyOrder.lt k head.1
            · exact KeyOrder.trans hlt (hkey ▸ hhead' e he)
            · rw [KeyOrder.eq_of_not_lt hlt hgt, hkey]; exact hhead' e he
          rw [find?_eq_none_of_lt hall, find?_eq_none_of_lt hall']
      rw [hrest, Prod.ext hkey hval]

end Entries

end QuantumWorkbench
