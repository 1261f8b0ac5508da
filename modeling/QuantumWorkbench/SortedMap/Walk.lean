import QuantumWorkbench.SortedMap.Entries

/-!
# Many updates in one walk

A list of updates is put in order of the keys and carried out in one walk through the entries.
Updates of one key keep their order, so the result is that of one update after another.
-/

namespace QuantumWorkbench.Entries

variable {κ β γ : Type} [KeyOrder κ]

/-- One update after another. -/
def updateEach (f : Option β → γ → β) (es : List (κ × β)) (xs : List (κ × γ)) : List (κ × β) :=
  xs.foldl (fun es x => update x.1 (f · x.2) es) es

/-- The key of the first does not come after that of the second. -/
@[inline] def byKey (a b : κ × γ) : Bool := !decide (KeyOrder.lt b.1 a.1)

/-- Whether the keys never decrease. -/
@[specialize] def inOrder : List (κ × γ) → Bool
  | a :: b :: rest => byKey a b && inOrder (b :: rest)
  | _ => true

/-- The list in order of its keys; entries of one key stay in their order. -/
@[specialize] def sort (xs : List (κ × γ)) : List (κ × γ) :=
  if inOrder xs then xs else xs.mergeSort byKey

/-- Moves the entries below a key from the list ahead to the list behind, latest first. -/
@[specialize] def seek (k : κ) : List (κ × β) → List (κ × β) → List (κ × β) × List (κ × β)
  | behind, [] => (behind, [])
  | behind, (k', b) :: ahead =>
    if KeyOrder.lt k' k then seek k ((k', b) :: behind) ahead else (behind, (k', b) :: ahead)

/-- Walks on to a key and changes its value. -/
@[specialize] def updateAhead (f : Option β → γ → β) (place : List (κ × β) × List (κ × β))
    (x : κ × γ) : List (κ × β) × List (κ × β) :=
  let (behind, ahead) := seek x.1 place.1 place.2
  (behind, update x.1 (f · x.2) ahead)

/-- Updates in order of the keys, in one walk. -/
@[specialize] def updateAll (f : Option β → γ → β) (es : List (κ × β)) (xs : List (κ × γ)) :
    List (κ × β) :=
  let place := (sort xs).foldl (updateAhead f) ([], es)
  place.1.reverseAux place.2

theorem byKey_trans (a b c : κ × γ) (h : byKey a b) (h' : byKey b c) : byKey a c := by
  simp only [byKey, Bool.not_eq_true', decide_eq_false_iff_not] at *
  intro hca
  by_cases hab : KeyOrder.lt a.1 b.1
  · exact h' (KeyOrder.trans hca hab)
  · exact h' (KeyOrder.eq_of_not_lt hab h ▸ hca)

theorem byKey_total (a b : κ × γ) : byKey a b || byKey b a := by
  simp only [byKey, Bool.or_eq_true, Bool.not_eq_true', decide_eq_false_iff_not]
  by_cases h : KeyOrder.lt b.1 a.1
  · exact Or.inr (not_lt_of_lt h)
  · exact Or.inl h

theorem pairwise_of_inOrder {xs : List (κ × γ)} (h : inOrder xs) :
    xs.Pairwise fun a b => byKey a b := by
  induction xs with
  | nil => exact List.Pairwise.nil
  | cons a xs ih =>
    cases xs with
    | nil => exact List.pairwise_singleton _ _
    | cons b rest =>
      simp only [inOrder, Bool.and_eq_true] at h
      refine List.pairwise_cons.2 ⟨fun c hc => ?_, ih h.2⟩
      rcases List.mem_cons.1 hc with rfl | hc
      · exact h.1
      · exact byKey_trans _ _ _ h.1 ((List.pairwise_cons.1 (ih h.2)).1 c hc)

theorem pairwise_sort (xs : List (κ × γ)) : (sort xs).Pairwise fun a b => byKey a b := by
  unfold sort
  split
  · next h => exact pairwise_of_inOrder h
  · exact List.pairwise_mergeSort byKey_trans byKey_total xs

/-- Entries of one key are in the same order before and after sorting. -/
theorem filter_sort (k : κ) (xs : List (κ × γ)) (p : κ × γ → Bool) (hp : ∀ x, p x → x.1 = k) :
    (sort xs).filter p = xs.filter p := by
  unfold sort
  split
  · rfl
  · -- a sublist that is in order is a sublist of the stably sorted list, and it is as long
    have hle : (xs.filter p).Pairwise fun a b => byKey a b := by
      refine List.pairwise_of_forall_mem_list fun a ha b hb => ?_
      have hka := hp a (List.mem_filter.1 ha).2
      have hkb := hp b (List.mem_filter.1 hb).2
      simp [byKey, hka, hkb, KeyOrder.irrefl]
    have hsub : (xs.filter p).Sublist ((xs.mergeSort byKey).filter p) := by
      have := (List.sublist_mergeSort byKey_trans byKey_total hle
        List.filter_sublist).filter p
      simpa using this
    exact (hsub.eq_of_length ((List.mergeSort_perm xs byKey).filter p).length_eq.symm).symm

theorem find?_updateEach [DecidableEq κ] (f : Option β → γ → β) (k : κ) (es : List (κ × β))
    (xs : List (κ × γ)) :
    find? k (updateEach f es xs) =
      (xs.filter fun x => x.1 = k).foldl (fun old x => some (f old x.2)) (find? k es) := by
  induction xs generalizing es with
  | nil => rfl
  | cons x xs ih =>
    rw [updateEach, List.foldl_cons, ← updateEach, ih]
    by_cases h : x.1 = k
    · simp [h, find?_update_self]
    · simp [h, find?_update_of_ne (Ne.symm h)]

theorem sorted_updateEach {f : Option β → γ → β} {es : List (κ × β)} (h : Sorted es)
    (xs : List (κ × γ)) : Sorted (updateEach f es xs) := by
  induction xs generalizing es with
  | nil => exact h
  | cons x xs ih => exact ih (sorted_update h)

theorem updateEach_sort (f : Option β → γ → β) {es : List (κ × β)} (h : Sorted es)
    (xs : List (κ × γ)) : updateEach f es (sort xs) = updateEach f es xs := by
  classical
  -- the value at a key depends on the updates of that key alone
  refine eq_of_find?_eq (sorted_updateEach h _) (sorted_updateEach h _) fun k => ?_
  rw [find?_updateEach, find?_updateEach, filter_sort k xs _ fun x hx => of_decide_eq_true hx]

theorem update_append {k : κ} {f : Option β → β} {es : List (κ × β)}
    (h : ∀ e ∈ es, KeyOrder.lt e.1 k) (es' : List (κ × β)) :
    update k f (es ++ es') = es ++ update k f es' := by
  induction es with
  | nil => rfl
  | cons head es ih =>
    have hlt := h head List.mem_cons_self
    rw [List.cons_append, update, if_neg (not_lt_of_lt hlt), if_pos hlt,
      ih fun e he => h e (List.mem_cons_of_mem _ he), List.cons_append]

/-- Seeking a key changes nothing but the place in the list; what is behind lies below the key. -/
theorem seek_spec (k : κ) (behind ahead : List (κ × β)) (h : ∀ e ∈ behind, KeyOrder.lt e.1 k) :
    (seek k behind ahead).1.reverse ++ (seek k behind ahead).2 = behind.reverse ++ ahead ∧
      ∀ e ∈ (seek k behind ahead).1, KeyOrder.lt e.1 k := by
  induction ahead generalizing behind with
  | nil => exact ⟨rfl, h⟩
  | cons head ahead ih =>
    unfold seek
    split
    · next hlt =>
      have := ih (head :: behind) fun e he => by
        rcases List.mem_cons.1 he with rfl | he
        · exact hlt
        · exact h e he
      simpa using this
    · exact ⟨rfl, h⟩

theorem foldl_updateAhead (f : Option β → γ → β) (xs : List (κ × γ))
    (place : List (κ × β) × List (κ × β)) (hxs : xs.Pairwise fun a b => byKey a b)
    (h : ∀ e ∈ place.1, ∀ x ∈ xs, KeyOrder.lt e.1 x.1) :
    (xs.foldl (updateAhead f) place).1.reverse ++ (xs.foldl (updateAhead f) place).2 =
      updateEach f (place.1.reverse ++ place.2) xs := by
  induction xs generalizing place with
  | nil => rfl
  | cons x xs ih =>
    obtain ⟨hx, hxs⟩ := List.pairwise_cons.1 hxs
    obtain ⟨hseek, hbehind⟩ :=
      seek_spec x.1 place.1 place.2 fun e he => h e he x List.mem_cons_self
    -- the invariant: all that is behind lies below the keys still to come
    have hnext : ∀ e ∈ (updateAhead f place x).1, ∀ y ∈ xs, KeyOrder.lt e.1 y.1 := by
      intro e he y hy
      have hle := hx y hy
      simp only [byKey, Bool.not_eq_true', decide_eq_false_iff_not] at hle
      by_cases hlt : KeyOrder.lt x.1 y.1
      · exact KeyOrder.trans (hbehind e he) hlt
      · exact KeyOrder.eq_of_not_lt hlt hle ▸ hbehind e he
    have hplace : (updateAhead f place x).1.reverse ++ (updateAhead f place x).2 =
        update x.1 (f · x.2) (place.1.reverse ++ place.2) := by
      rw [← hseek]
      exact (update_append (fun e he => hbehind e (List.mem_reverse.1 he)) _).symm
    rw [List.foldl_cons, ih _ hxs hnext, hplace]
    rfl

theorem updateAll_eq_updateEach (f : Option β → γ → β) {es : List (κ × β)} (h : Sorted es)
    (xs : List (κ × γ)) : updateAll f es xs = updateEach f es xs := by
  rw [← updateEach_sort f h, updateAll, List.reverseAux_eq,
    foldl_updateAhead f _ _ (pairwise_sort xs) fun e he => by cases he]
  rfl

end QuantumWorkbench.Entries
