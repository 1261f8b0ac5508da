import Mathlib
import QuantumWorkbench.Proofs.SortedMap
import QuantumWorkbench.SortedMap.Group
import QuantumWorkbench.State.Sampling

/-!
# Histograms

A histogram counts every reading, and no reading is lost: the counts add up to the number of
readings. The string read most often is the first in order of those with the largest count.
-/

namespace QuantumWorkbench.Histogram

/-! ## Counting -/

/-- A reading counts where it is the one asked for. -/
theorem getD_get?_tally (h : Histogram) (reading key : String) :
    ((h.tally reading).get? key).getD 0 =
      (h.get? key).getD 0 + if reading = key then 1 else 0 := by
  rw [tally]
  split_ifs with heq
  · rw [heq, SortedMap.get?_update_self, Option.getD_some]
  · rw [SortedMap.get?_update_of_ne _ (Ne.symm heq), Nat.add_zero]

/-- **Every string is counted as often as it was read.** -/
theorem getD_get?_ofReadings (readings : List String) (key : String) :
    ((ofReadings readings).get? key).getD 0 = readings.count key := by
  have hrun (h : Histogram) : ((readings.foldl tally h).get? key).getD 0 =
      (h.get? key).getD 0 + readings.count key := by
    induction readings generalizing h with
    | nil => rfl
    | cons reading readings ih =>
      rw [List.foldl_cons, ih, getD_get?_tally, List.count_cons, Nat.add_assoc]
      simp only [beq_iff_eq, Nat.add_comm]
  rw [ofReadings_eq_foldl, hrun]
  exact Nat.zero_add _

theorem get?_tally_eq_none_iff (h : Histogram) (reading key : String) :
    (h.tally reading).get? key = none ↔ h.get? key = none ∧ key ≠ reading := by
  rw [tally]
  by_cases heq : key = reading
  · rw [heq, SortedMap.get?_update_self]
    simp
  · rw [SortedMap.get?_update_of_ne _ heq]
    simp [heq]

/-- What was not read has no count. -/
theorem get?_ofReadings_eq_none_iff (readings : List String) (key : String) :
    (ofReadings readings).get? key = none ↔ key ∉ readings := by
  have hrun (h : Histogram) : (readings.foldl tally h).get? key = none ↔
      h.get? key = none ∧ key ∉ readings := by
    induction readings generalizing h with
    | nil => simp
    | cons reading readings ih =>
      rw [List.foldl_cons, ih, get?_tally_eq_none_iff, List.mem_cons, not_or, and_assoc]
  rw [ofReadings_eq_foldl, hrun]
  exact and_iff_right rfl

/-- What has a count was read that often. -/
theorem get?_ofReadings_eq_some {readings : List String} {key : String} {n : ℕ}
    (h : (ofReadings readings).get? key = some n) : key ∈ readings ∧ n = readings.count key := by
  have hcount := getD_get?_ofReadings readings key
  refine ⟨?_, by rw [← hcount, h]; rfl⟩
  by_contra hmem
  rw [(get?_ofReadings_eq_none_iff readings key).2 hmem] at h
  cases h

theorem sum_values_tally (h : Histogram) (reading : String) :
    (h.tally reading).values.sum = h.values.sum + 1 := by
  obtain ⟨before, after, hentries, hupdate, -⟩ := Entries.exists_split reading h.sorted
  generalize Entries.find? reading h.entries = old at hentries hupdate
  simp only [SortedMap.values, tally, SortedMap.update, hupdate]
  rw [hentries]
  cases old with
  | none =>
    simp
    omega
  | some n =>
    simp
    omega

/-- **The counts add up** to the number of readings. -/
theorem sum_values_ofReadings (readings : List String) :
    (ofReadings readings).values.sum = readings.length := by
  have hrun (h : Histogram) :
      (readings.foldl tally h).values.sum = h.values.sum + readings.length := by
    induction readings generalizing h with
    | nil => rfl
    | cons reading readings ih =>
      rw [List.foldl_cons, ih, sum_values_tally, List.length_cons]
      omega
  rw [ofReadings_eq_foldl, hrun]
  exact Nat.zero_add _

/-! ## Scans that keep the first of the lowest -/

section Scan

variable {α β : Type} [LinearOrder β] {rank : α → β} {e x : α} {before after : List α}

theorem rank_le_of_mem_split (hbefore : ∀ y ∈ before, rank e < rank y)
    (hafter : ∀ y ∈ after, rank e ≤ rank y) (hx : x ∈ before ++ e :: after) :
    rank e ≤ rank x := by
  rcases List.mem_append.1 hx with hx | hx
  · exact (hbefore x hx).le
  · rcases List.mem_cons.1 hx with rfl | hx
    · exact le_rfl
    · exact hafter x hx

/-- **A scan that replaces the leader only by what ranks lower** ends with the first of the lowest
rank: what comes before it ranks higher, and what comes behind it not lower. -/
theorem exists_foldl_first (rank : α → β) (keep : Option α → α → Option α)
    (hnew : ∀ b x, rank x < rank b → keep (some b) x = some x)
    (hold : ∀ b x, ¬ rank x < rank b → keep (some b) x = some b) (b : α) (xs : List α) :
    ∃ e before after, xs.foldl keep (some b) = some e ∧ b :: xs = before ++ e :: after ∧
      (∀ x ∈ before, rank e < rank x) ∧ ∀ x ∈ after, rank e ≤ rank x := by
  -- induction on what is still to be scanned, for any leader
  induction xs generalizing b with
  | nil => exact ⟨b, [], [], rfl, rfl, List.forall_mem_nil _, List.forall_mem_nil _⟩
  | cons x xs ih =>
    rw [List.foldl_cons]
    by_cases hlt : rank x < rank b
    · -- the new one takes the lead, and the old leader comes before it
      obtain ⟨e, before, after, hfold, hsplit, hbefore, hafter⟩ := ih x
      have hle : rank e ≤ rank x :=
        rank_le_of_mem_split hbefore hafter (hsplit ▸ List.mem_cons_self)
      rw [hnew b x hlt]
      refine ⟨e, b :: before, after, hfold, congrArg (b :: ·) hsplit, ?_, hafter⟩
      exact List.forall_mem_cons.2 ⟨hle.trans_lt hlt, hbefore⟩
    · -- the leader stays, and the new one is behind it or behind what comes to lead
      have hbx : rank b ≤ rank x := not_lt.1 hlt
      obtain ⟨e, before, after, hfold, hsplit, hbefore, hafter⟩ := ih b
      rw [hold b x hlt]
      cases before with
      | nil =>
        obtain ⟨rfl, rfl⟩ := List.cons.inj hsplit
        exact ⟨b, [], x :: xs, hfold, rfl, List.forall_mem_nil _,
          List.forall_mem_cons.2 ⟨hbx, hafter⟩⟩
      | cons b' before =>
        obtain ⟨rfl, rfl⟩ := List.cons.inj hsplit
        obtain ⟨hb, hbefore⟩ := List.forall_mem_cons.1 hbefore
        exact ⟨e, b :: x :: before, after, hfold, rfl, List.forall_mem_cons.2
          ⟨hb, List.forall_mem_cons.2 ⟨hb.trans_le hbx, hbefore⟩⟩, hafter⟩

end Scan

/-! ## The string read most often -/

/-- The first of the entries with the largest count: those before it have less, and those behind it
have no more. -/
def IsFirstMost (e : String × ℕ) (es : List (String × ℕ)) : Prop :=
  ∃ before after, es = before ++ e :: after ∧ (∀ x ∈ before, x.2 < e.2) ∧ ∀ x ∈ after, x.2 ≤ e.2

/-- Keeps the better of two entries, the earlier of equals. -/
def better (best : Option (String × ℕ)) (e : String × ℕ) : Option (String × ℕ) :=
  match best with
  | some b => if b.2 < e.2 then some e else some b
  | none => some e

theorem mostFrequent_eq (h : Histogram) :
    h.mostFrequent = (h.entries.foldl better none).map Prod.fst := rfl

/-- **The scan finds the first of the most frequent entries.** -/
theorem exists_foldl_better (b : String × ℕ) (es : List (String × ℕ)) :
    ∃ e, es.foldl better (some b) = some e ∧ IsFirstMost e (b :: es) := by
  -- the largest count is the lowest in the dual order
  obtain ⟨e, before, after, hfold, hsplit, hbefore, hafter⟩ :=
    exists_foldl_first (fun e : String × ℕ => OrderDual.toDual e.2) better
      (fun b x hlt => if_pos hlt) (fun b x hlt => if_neg hlt) b es
  exact ⟨e, hfold, before, after, hsplit, hbefore, hafter⟩

/-- A string is read most often, and of several it is the first in order. -/
def IsMost (h : Histogram) (key : String) : Prop :=
  ∃ n, h.get? key = some n ∧ ∀ key' n', h.get? key' = some n' → n' < n ∨ n' = n ∧ key ≤ key'

/-- At most one string is the first of those read most often. -/
theorem IsMost.eq {h : Histogram} {key key' : String} (hkey : h.IsMost key)
    (hkey' : h.IsMost key') : key = key' := by
  obtain ⟨n, hn, hmost⟩ := hkey
  obtain ⟨n', hn', hmost'⟩ := hkey'
  rcases hmost key' n' hn' with hlt | ⟨rfl, hle⟩
  · rcases hmost' key n hn with hlt' | ⟨rfl, -⟩
    · exact absurd hlt (lt_asymm hlt')
    · exact absurd hlt (lt_irrefl _)
  · rcases hmost' key n' hn with hlt' | ⟨-, hle'⟩
    · exact absurd hlt' (lt_irrefl _)
    · exact String.le_antisymm hle hle'

/-- The first of the entries with the largest count has the string read most often. -/
theorem IsFirstMost.isMost {h : Histogram} {e : String × ℕ} (hfirst : IsFirstMost e h.entries) :
    h.IsMost e.1 := by
  obtain ⟨before, after, hsplit, hbefore, hafter⟩ := hfirst
  have hmem : e ∈ h.entries := by simp [hsplit]
  have hsorted := h.sorted
  rw [hsplit] at hsorted
  refine ⟨e.2, SortedMap.get?_of_mem_entries hmem, fun key' n' hn' => ?_⟩
  have hmem' := SortedMap.mem_entries_of_get? hn'
  rw [hsplit] at hmem'
  rcases List.mem_append.1 hmem' with hmem' | hmem'
  · exact .inl (hbefore _ hmem')
  · rcases List.mem_cons.1 hmem' with rfl | hmem'
    · exact .inr ⟨rfl, String.le_refl _⟩
    · -- behind it the keys are larger
      have hkey : KeyOrder.lt e.1 key' :=
        (List.pairwise_cons.1 (List.pairwise_append.1 hsorted).2.1).1 _ hmem'
      rcases (hafter _ hmem').lt_or_eq with hlt | heq
      · exact .inl hlt
      · exact .inr ⟨heq, String.not_lt.1 (Entries.not_lt_of_lt hkey)⟩

/-- **What is returned is the first of the strings read most often**; nothing is returned only where
nothing was read. -/
theorem mostFrequent_spec (h : Histogram) :
    (∀ key, h.mostFrequent = some key ↔ h.IsMost key) ∧
      (h.mostFrequent = none ↔ h.entries = []) := by
  cases hentries : h.entries with
  | nil =>
    have hnone : h.mostFrequent = none := by rw [mostFrequent_eq, hentries]; rfl
    refine ⟨fun key => ?_, iff_of_true hnone rfl⟩
    rw [hnone]
    refine iff_of_false (fun h => by cases h) ?_
    rintro ⟨n, hn, -⟩
    have hmem := SortedMap.mem_entries_of_get? hn
    rw [hentries] at hmem
    cases hmem
  | cons b es =>
    -- the first entry leads when the scan of the others begins
    obtain ⟨e, hfold, hfirst⟩ := exists_foldl_better b es
    have hsome : h.mostFrequent = some e.1 := by
      rw [mostFrequent_eq, hentries]
      change (es.foldl better (some b)).map Prod.fst = _
      rw [hfold]
      rfl
    rw [← hentries] at hfirst
    refine ⟨fun key => ?_, iff_of_false (by rw [hsome]; simp) (by simp)⟩
    rw [hsome, Option.some.injEq]
    constructor
    · rintro rfl
      exact hfirst.isMost
    · exact hfirst.isMost.eq

end QuantumWorkbench.Histogram
