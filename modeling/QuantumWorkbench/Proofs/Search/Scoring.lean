import Mathlib
import QuantumWorkbench.Algorithm.Alternating
import QuantumWorkbench.Proofs.Circuit.Appending
import QuantumWorkbench.Proofs.Search.Exhaustive
import QuantumWorkbench.Proofs.State.Histogram

/-!
# Scoring measured strings

A reading writes the classical bits with the highest first, and taking it back as an assignment
turns them over again: variable `k` gets what was read into bit `k`. The alternating circuit of an
objective has a classical bit for each variable, so what is scored of its readings are assignments
with their values.
-/

namespace QuantumWorkbench

/-! ## Readings as assignments -/

theorem Solution.mapM_bitOfChar? (bs : List Bool) :
    (bs.map fun b => if b then '1' else '0').mapM bitOfChar? = some (bs.map Bool.toNat) := by
  induction bs with
  | nil => rfl
  | cons b bs ih => cases b <;> simp [ih, bitOfChar?]

/-- **A reading taken back** gives each variable what was read into the classical bit of its
number. -/
theorem Circuit.bitsOfString?_reading {α : Type} (c : Circuit α) (index : ℕ) :
    Solution.bitsOfString? (c.reading index) =
      some ((List.range c.bits).map fun bit => (c.readsOne index bit).toNat) := by
  have hbits := Solution.mapM_bitOfChar? ((List.range c.bits).map (c.readsOne index))
  rw [List.map_map, List.map_map] at hbits
  rw [Solution.bitsOfString?, reading, String.toList_ofList, ← List.map_reverse,
    List.reverse_reverse]
  exact hbits

section

variable {α σ : Type} [Scalar α]

/-- What a run counts are readings. -/
theorem Circuit.exists_reading_of_run [AmplitudeStore α] {c : Circuit α} {limit shots : ℕ}
    {source : Random.Source σ α} {s s' : σ} {run : Run α}
    (h : c.run limit shots source s = .ok (run, s')) :
    ∀ e ∈ run.counts.entries, ∃ index, e.1 = c.reading index := by
  obtain ⟨state, -, h⟩ := bind_eq_ok.1 h
  split_ifs at h
  · obtain ⟨rfl, -⟩ := Prod.mk.inj (Except.ok.inj h)
    exact fun e he => absurd he List.not_mem_nil
  · obtain ⟨rfl, -⟩ := Prod.mk.inj (Except.ok.inj h)
    intro e he
    have hkey := (Histogram.get?_ofReadings_eq_some (SortedMap.get?_of_mem_entries he)).1
    rw [readings_eq_map] at hkey
    obtain ⟨index, -, hindex⟩ := List.mem_map.1 hkey
    exact ⟨index, hindex.symm⟩

/-- A fresh circuit has the classical bits it was asked for. -/
theorem Circuit.bits_of_build {width bits : ℕ} {ps : List (Placement α)} {c : Circuit α}
    (h : build width bits ps = .ok c) : c.bits = bits := by
  obtain ⟨gates, -, rfl⟩ := build_eq_ok_iff.1 h
  rfl

namespace Problem

variable {p : Problem α} {q : Qubo α}

/-- A scan that keeps its choice or takes what it looks at ends with the first choice or something
in the list. -/
theorem mem_of_foldl_choice {β : Type} {pick : Option β → β → Option β}
    (hpick : ∀ choice x, pick choice x = some x ∨ pick choice x = choice) {xs : List β}
    {first : Option β} {best : β} (h : xs.foldl pick first = some best) :
    first = some best ∨ best ∈ xs := by
  induction xs generalizing first with
  | nil => exact .inl h
  | cons x xs ih =>
    rcases ih h with hfirst | hmem
    · rcases hpick first x with hx | hkeep
      · obtain rfl := Option.some.inj (hx.symm.trans hfirst)
        exact .inr List.mem_cons_self
      · exact .inl (hkeep.symm.trans hfirst)
    · exact .inr (List.mem_cons_of_mem x hmem)

theorem mem_of_bestOf {samples : List (Sample α)} {best : Sample α}
    (h : bestOf samples = some best) : best ∈ samples := by
  refine (mem_of_foldl_choice (fun choice s => ?_) h).resolve_left (nomatch ·)
  cases choice with
  | none => exact .inl rfl
  | some b =>
    dsimp only
    split
    · exact .inl rfl
    · exact .inr rfl

theorem bits_of_alternating (hq : p.qubo? = some q) {gammas betas : List α}
    {config : Alternating.Config} {c : Circuit α}
    (h : p.alternating gammas betas config = .ok c) : c.bits = q.width := by
  simp only [alternating, hq, Alternating.circuit] at h
  split at h
  · exact nomatch h
  · obtain ⟨-, -, h⟩ := bind_eq_ok.1 h
    obtain ⟨c', hbuild, h⟩ := bind_eq_ok.1 h
    have hbits : c'.bits = q.width := Circuit.bits_of_build hbuild
    rw [← Except.ok.inj h]
    -- measurements are recorded in the bits that are there
    split
    · exact hbits
    · exact hbits

/-- **What is sampled from the alternating circuit is an assignment with its value.** -/
theorem scores_of_sampleAlternating [AmplitudeStore α] (hq : p.qubo? = some q)
    {gammas betas : List α} {limit shots : ℕ} {source : Random.Source σ α} {s : σ}
    {sample : Sample α}
    (h : p.sampleAlternating gammas betas limit shots source s = .ok (some sample)) :
    q.Scores sample.solution := by
  obtain ⟨c, hc, h⟩ := bind_eq_ok.1 h
  obtain ⟨⟨run, s'⟩, hrun, h⟩ := bind_eq_ok.1 h
  have hrun := mapError_eq_ok.1 hrun
  obtain ⟨e, he, hsample⟩ := List.mem_filterMap.1 (mem_of_bestOf (Except.ok.inj h))
  obtain ⟨index, hindex⟩ := Circuit.exists_reading_of_run hrun e he
  rw [sample?, hindex, Circuit.bitsOfString?_reading] at hsample
  obtain rfl := Option.some.inj hsample
  refine ⟨⟨?_, ?_⟩, ?_⟩
  · rw [List.length_map, List.length_range, bits_of_alternating hq hc]
  · intro b hb
    obtain ⟨bit, -, rfl⟩ := List.mem_map.1 hb
    exact Bool.toNat_lt _
  · simp only [Problem.evaluate, hq]
    rfl

end Problem

end

end QuantumWorkbench
