import QuantumWorkbench.SortedMap

/-!
# Reading maps in key order

What looking up gives after a change, and where a change takes place: the entries of a map split at
every key into those before it, the one at it and those after it, and only the middle part changes.
-/

namespace QuantumWorkbench

namespace Entries

variable {κ β : Type} [KeyOrder κ]

theorem find?_erase_self (k : κ) {es : List (κ × β)} (h : Sorted es) :
    find? k (erase k es) = none := by
  induction es with
  | nil => rfl
  | cons head es ih =>
    obtain ⟨k', b⟩ := head
    obtain ⟨hhead, htail⟩ := List.pairwise_cons.1 h
    unfold erase
    by_cases hlt : KeyOrder.lt k k'
    · simp [find?, hlt]
    · by_cases hgt : KeyOrder.lt k' k
      · simp [find?, hlt, hgt, ih htail]
      · obtain rfl := KeyOrder.eq_of_not_lt hlt hgt
        simp only [hlt, if_false]
        exact find?_eq_none_of_lt hhead

theorem find?_erase_of_ne {k k' : κ} (h : k ≠ k') {es : List (κ × β)} (hs : Sorted es) :
    find? k (erase k' es) = find? k es := by
  induction es with
  | nil => rfl
  | cons head es ih =>
    obtain ⟨k₁, b⟩ := head
    obtain ⟨hhead, htail⟩ := List.pairwise_cons.1 hs
    unfold erase
    by_cases h₁ : KeyOrder.lt k' k₁
    · rw [if_pos h₁]
    · by_cases h₂ : KeyOrder.lt k₁ k'
      · rw [if_neg h₁, if_pos h₂, find?, find?, ih htail]
      · obtain rfl := KeyOrder.eq_of_not_lt h₁ h₂
        rw [if_neg h₁, if_neg h₂, find?]
        by_cases hlt : KeyOrder.lt k k'
        · rw [if_pos hlt]
          exact find?_eq_none_of_lt fun e he => KeyOrder.trans hlt (hhead e he)
        · have hgt : KeyOrder.lt k' k :=
            Decidable.byContradiction fun hn => h (KeyOrder.eq_of_not_lt hlt hn)
          rw [if_neg hlt, if_pos hgt]

/-- The entries split at a key, and an update changes the middle part only. -/
theorem exists_split (k : κ) {es : List (κ × β)} (h : Sorted es) :
    ∃ before after, es = before ++ (find? k es).toList.map (fun b => (k, b)) ++ after ∧
      (∀ f, update k f es = before ++ (k, f (find? k es)) :: after) ∧
      ∀ e ∈ before ++ after, e.1 ≠ k := by
  induction es with
  | nil => exact ⟨[], [], rfl, fun _ => rfl, by simp⟩
  | cons head es ih =>
    obtain ⟨k', b⟩ := head
    obtain ⟨hhead, htail⟩ := List.pairwise_cons.1 h
    by_cases hlt : KeyOrder.lt k k'
    · -- the key lies before all entries
      refine ⟨[], (k', b) :: es, by simp [find?, hlt], fun f => by simp [update, find?, hlt], ?_⟩
      intro e he hk
      have hlt' : KeyOrder.lt k e.1 := by
        rcases List.mem_cons.1 he with rfl | he
        · exact hlt
        · exact KeyOrder.trans hlt (hhead e he)
      exact KeyOrder.irrefl k (hk ▸ hlt')
    · by_cases hgt : KeyOrder.lt k' k
      · obtain ⟨before, after, hes, hupdate, hne⟩ := ih htail
        have hfind : find? k ((k', b) :: es) = find? k es := by simp [find?, hlt, hgt]
        refine ⟨(k', b) :: before, after, ?_, fun f => ?_, fun e he => ?_⟩
        · rw [hfind, List.cons_append, List.cons_append, ← hes]
        · rw [hfind, update, if_neg hlt, if_pos hgt, hupdate, List.cons_append]
        · rcases List.mem_cons.1 he with rfl | he
          · exact fun hk => KeyOrder.irrefl k (hk ▸ hgt)
          · exact hne e he
      · obtain rfl := KeyOrder.eq_of_not_lt hlt hgt
        refine ⟨[], es, by simp [find?, hlt], fun f => by simp [update, find?, hlt], ?_⟩
        exact fun e he hk => KeyOrder.irrefl k (hk ▸ hhead e he)

end Entries

namespace SortedMap

variable {κ β : Type} [KeyOrder κ]

@[simp] theorem get?_empty (k : κ) : (empty : SortedMap κ β).get? k = none := rfl

@[simp] theorem keys_empty : (empty : SortedMap κ β).keys = [] := rfl

theorem get?_update_self (m : SortedMap κ β) (k : κ) (f : Option β → β) :
    (m.update k f).get? k = some (f (m.get? k)) := Entries.find?_update_self k f m.entries

theorem get?_update_of_ne (m : SortedMap κ β) {k k' : κ} (h : k ≠ k') (f : Option β → β) :
    (m.update k' f).get? k = m.get? k := Entries.find?_update_of_ne h f m.entries

@[simp] theorem get?_insert_self (m : SortedMap κ β) (k : κ) (b : β) :
    (m.insert k b).get? k = some b := get?_update_self m k _

theorem get?_insert_of_ne (m : SortedMap κ β) {k k' : κ} (h : k ≠ k') (b : β) :
    (m.insert k' b).get? k = m.get? k := get?_update_of_ne m h _

@[simp] theorem get?_erase_self (m : SortedMap κ β) (k : κ) : (m.erase k).get? k = none :=
  Entries.find?_erase_self k m.sorted

theorem get?_erase_of_ne (m : SortedMap κ β) {k k' : κ} (h : k ≠ k') :
    (m.erase k').get? k = m.get? k := Entries.find?_erase_of_ne h m.sorted

theorem get?_of_mem_entries {m : SortedMap κ β} {k : κ} {b : β} (h : (k, b) ∈ m.entries) :
    m.get? k = some b := by
  obtain ⟨before, after, hentries, -, hne⟩ := Entries.exists_split k m.sorted
  rw [hentries, List.append_assoc, List.mem_append, List.mem_append] at h
  rcases h with h | h | h
  · exact absurd rfl (hne _ (List.mem_append_left _ h))
  · obtain ⟨b', hb', heq⟩ := List.mem_map.1 h
    cases heq
    exact Option.mem_toList.1 hb'
  · exact absurd rfl (hne _ (List.mem_append_right _ h))

theorem mem_entries_of_get? {m : SortedMap κ β} {k : κ} {b : β} (h : m.get? k = some b) :
    (k, b) ∈ m.entries := by
  obtain ⟨before, after, hentries, -, -⟩ := Entries.exists_split k m.sorted
  rw [hentries, show Entries.find? k m.entries = some b from h]
  simp

/-- The entries of a map split at a key, and inserting there changes the middle part only. -/
theorem exists_entries_split (m : SortedMap κ β) (k : κ) :
    ∃ before after : List (κ × β),
      m.entries = before ++ (m.get? k).toList.map (fun b => (k, b)) ++ after ∧
      (∀ b, (m.insert k b).entries = before ++ (k, b) :: after) ∧
      ∀ e ∈ before ++ after, e.1 ≠ k := by
  obtain ⟨before, after, hentries, hupdate, hne⟩ := Entries.exists_split k m.sorted
  exact ⟨before, after, hentries, fun b => hupdate fun _ => b, hne⟩

/-- The values of a map split at a key, and inserting there changes the middle part only. -/
theorem exists_values_split (m : SortedMap κ β) (k : κ) :
    ∃ before after : List (κ × β),
      m.values = before.map Prod.snd ++ (m.get? k).toList ++ after.map Prod.snd ∧
      (∀ b, (m.insert k b).values = before.map Prod.snd ++ b :: after.map Prod.snd) ∧
      ∀ e ∈ before ++ after, e ∈ m.entries ∧ e.1 ≠ k := by
  obtain ⟨before, after, hentries, hinsert, hne⟩ := m.exists_entries_split k
  refine ⟨before, after, ?_, fun b => ?_, fun e he => ⟨?_, hne e he⟩⟩
  · rw [values, hentries]
    cases m.get? k <;> simp
  · rw [values, hinsert]
    simp
  · rw [hentries]
    rcases List.mem_append.1 he with he | he
    · exact List.mem_append_left _ (List.mem_append_left _ he)
    · exact List.mem_append_right _ he

theorem length_values_insert (m : SortedMap κ β) (k : κ) (b : β) :
    (m.insert k b).values.length + (m.get? k).toList.length = m.values.length + 1 := by
  obtain ⟨before, after, hvalues, hinsert, -⟩ := m.exists_values_split k
  rw [hvalues, hinsert]
  simp only [List.length_append, List.length_cons, List.length_map]
  omega

/-- A new key adds a value. -/
theorem length_values_insert_of_none {m : SortedMap κ β} {k : κ} (b : β) (h : m.get? k = none) :
    (m.insert k b).values.length = m.values.length + 1 := by
  have hlen := m.length_values_insert k b
  rwa [h] at hlen

/-- A known key keeps their number. -/
theorem length_values_insert_of_some {m : SortedMap κ β} {k : κ} {old : β} (b : β)
    (h : m.get? k = some old) : (m.insert k b).values.length = m.values.length := by
  have hlen := m.length_values_insert k b
  rw [h] at hlen
  exact Nat.succ.inj hlen

theorem mem_keys_iff {m : SortedMap κ β} {k : κ} : k ∈ m.keys ↔ ∃ b, m.get? k = some b := by
  constructor
  · intro h
    obtain ⟨⟨_, b⟩, he, rfl⟩ := List.mem_map.1 h
    exact ⟨b, get?_of_mem_entries he⟩
  · rintro ⟨b, h⟩
    exact List.mem_map.2 ⟨_, mem_entries_of_get? h, rfl⟩

theorem mem_keys_insert {m : SortedMap κ β} {k k' : κ} {b : β} :
    k ∈ (m.insert k' b).keys ↔ k = k' ∨ k ∈ m.keys := by
  rw [mem_keys_iff, mem_keys_iff]
  by_cases h : k = k'
  · subst h
    exact iff_of_true ⟨b, get?_insert_self m k b⟩ (Or.inl rfl)
  · rw [get?_insert_of_ne m h, or_iff_right h]

/-- A map has each key once. -/
theorem nodup_keys (m : SortedMap κ β) : m.keys.Nodup := by
  refine List.pairwise_map.2 (m.sorted.imp fun {e e'} hlt heq => ?_)
  exact KeyOrder.irrefl e.1 (heq ▸ hlt)

theorem mem_entries_insert {m : SortedMap κ β} {k : κ} {b : β} {e : κ × β}
    (h : e ∈ (m.insert k b).entries) : e = (k, b) ∨ e ∈ m.entries := by
  obtain ⟨before, after, hentries, hinsert, -⟩ := m.exists_entries_split k
  rw [hinsert, List.mem_append, List.mem_cons] at h
  rw [hentries, List.append_assoc, List.mem_append, List.mem_append]
  rcases h with h | rfl | h
  · exact Or.inr (Or.inl h)
  · exact Or.inl rfl
  · exact Or.inr (Or.inr (Or.inr h))

end SortedMap

end QuantumWorkbench
