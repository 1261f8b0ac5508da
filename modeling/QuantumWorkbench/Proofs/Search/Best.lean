import Mathlib
import QuantumWorkbench.Proofs.Exact
import QuantumWorkbench.Proofs.State.Histogram
import QuantumWorkbench.Search.Scoring

/-!
# The best reading of a histogram

A scan keeps the first of the samples with the lowest objective and, among those, the largest count.
The scan goes through a histogram in the order of its strings, so what it returns is the least
reading by objective, count and string: the string decides where the comparison of samples does not
look at it.
-/

namespace QuantumWorkbench

/-! ## Strings of bits -/

namespace Solution

/-- A string of zeros and ones. The empty string is one. -/
def IsBinary (text : String) : Prop := ∀ ch ∈ text.toList, ch = '0' ∨ ch = '1'

/-- The bits that a string of zeros and ones spells, the last character first. -/
def bitsOf (text : String) : List ℕ := text.toList.reverse.map fun ch => if ch = '1' then 1 else 0

theorem mapM_bitOfChar?_eq_some_iff {cs : List Char} {bits : List ℕ} :
    cs.mapM bitOfChar? = some bits ↔ (∀ ch ∈ cs, ch = '0' ∨ ch = '1') ∧
      bits = cs.map fun ch => if ch = '1' then 1 else 0 := by
  induction cs generalizing bits with
  | nil => simp [eq_comm]
  | cons ch cs ih =>
    have hch : ∀ b, bitOfChar? ch = some b ↔
        (ch = '0' ∨ ch = '1') ∧ b = if ch = '1' then 1 else 0 := by
      intro b
      by_cases hzero : ch = '0'
      · simp [bitOfChar?, hzero, eq_comm]
      · by_cases hone : ch = '1' <;> simp [bitOfChar?, hzero, hone, eq_comm]
    simp only [List.mapM_cons, Option.bind_eq_bind, Option.bind_eq_some_iff, ih, hch,
      List.forall_mem_cons, List.map_cons]
    constructor
    · rintro ⟨_, ⟨hfirst, rfl⟩, _, ⟨hrest, rfl⟩, h⟩
      exact ⟨⟨hfirst, hrest⟩, (Option.some.inj h).symm⟩
    · rintro ⟨⟨hfirst, hrest⟩, rfl⟩
      exact ⟨_, ⟨hfirst, rfl⟩, _, ⟨hrest, rfl⟩, rfl⟩

/-- **Which strings are read**, and as which bits. -/
theorem bitsOfString?_eq_some_iff {text : String} {bits : List ℕ} :
    bitsOfString? text = some bits ↔ IsBinary text ∧ bits = bitsOf text := by
  rw [bitsOfString?, mapM_bitOfChar?_eq_some_iff]
  simp only [List.mem_reverse]
  rfl

end Solution

namespace Problem

open Solution

/-! ## The scan -/

/-- Where a sample stands: by its objective from the lowest up, then by its count from the largest
down. -/
noncomputable def Sample.rank (s : Sample ℝ) : ℝ ×ₗ ℕᵒᵈ :=
  toLex (s.solution.energy, OrderDual.toDual s.count)

theorem Sample.beats_iff {s t : Sample ℝ} : s.beats t = true ↔ s.rank < t.rank := by
  have hbefore : ∀ x y : ℝ, Scalar.before x y = true ↔ x < y := fun x y => by
    simp [Scalar.before, Scalar.atMost]
  have hsame : ∀ x y : ℝ, Scalar.sameRank x y = true ↔ x = y := fun x y => by
    simp only [Scalar.sameRank, Scalar.atMost, Bool.and_eq_true, decide_eq_true_eq,
      ← le_antisymm_iff]
  simp only [beats, Bool.or_eq_true, Bool.and_eq_true, hbefore, hsame, decide_eq_true_eq, rank,
    Prod.Lex.toLex_lt_toLex, OrderDual.toDual_lt_toDual]

/-- The first of the samples of the lowest rank: those before it rank higher, and those behind it
not lower. -/
def IsFirstLowest (s : Sample ℝ) (samples : List (Sample ℝ)) : Prop :=
  ∃ before after, samples = before ++ s :: after ∧ (∀ t ∈ before, s.rank < t.rank) ∧
    ∀ t ∈ after, s.rank ≤ t.rank

/-- Keeps the better of two samples, the earlier of equals. -/
noncomputable def better (best : Option (Sample ℝ)) (s : Sample ℝ) : Option (Sample ℝ) :=
  match best with
  | some b => if s.beats b then some s else some b
  | none => some s

theorem bestOf_eq (samples : List (Sample ℝ)) : bestOf samples = samples.foldl better none := by
  rw [bestOf]
  congr
  funext best s
  cases best with
  | none => rfl
  | some b => rfl

/-- **The scan finds the first sample of the lowest rank.** -/
theorem exists_foldl_better (b : Sample ℝ) (samples : List (Sample ℝ)) :
    ∃ s, samples.foldl better (some b) = some s ∧ IsFirstLowest s (b :: samples) := by
  obtain ⟨s, before, after, hfold, hsplit, hbefore, hafter⟩ :=
    Histogram.exists_foldl_first Sample.rank better
      (fun b s hlt => if_pos (Sample.beats_iff.2 hlt))
      (fun b s hlt => if_neg (mt Sample.beats_iff.1 hlt)) b samples
  exact ⟨s, hfold, before, after, hsplit, hbefore, hafter⟩

/-! ## Readings -/

variable {p : Problem ℝ} {h : Histogram}

/-- The sample of a reading: the bits that the string spells with their objective, and the count. -/
noncomputable def sampleOf (p : Problem ℝ) (reading : String × ℕ) : Sample ℝ :=
  ⟨⟨bitsOf reading.1, p.evaluate (bitsOf reading.1)⟩, reading.2⟩

theorem sample?_eq_some_iff {reading : String × ℕ} {s : Sample ℝ} :
    p.sample? reading = some s ↔ IsBinary reading.1 ∧ s = p.sampleOf reading := by
  simp only [sample?, Option.map_eq_some_iff, bitsOfString?_eq_some_iff]
  constructor
  · rintro ⟨_, ⟨hbinary, rfl⟩, rfl⟩
    exact ⟨hbinary, rfl⟩
  · rintro ⟨hbinary, rfl⟩
    exact ⟨_, ⟨hbinary, rfl⟩, rfl⟩

/-- A string of zeros and ones in a histogram is the least by the objective of its bits, then by its
count from the largest down, then by itself. -/
structure IsBest (p : Problem ℝ) (h : Histogram) (key : String) (n : ℕ) : Prop where
  counted : h.get? key = some n
  binary : IsBinary key
  least : ∀ key' n', h.get? key' = some n' → IsBinary key' →
    p.evaluate (bitsOf key) < p.evaluate (bitsOf key') ∨
      p.evaluate (bitsOf key) = p.evaluate (bitsOf key') ∧ (n' < n ∨ n' = n ∧ key ≤ key')

theorem rank_sampleOf_lt_iff {key key' : String} {n n' : ℕ} :
    (p.sampleOf (key, n)).rank < (p.sampleOf (key', n')).rank ↔
      p.evaluate (bitsOf key) < p.evaluate (bitsOf key') ∨
        p.evaluate (bitsOf key) = p.evaluate (bitsOf key') ∧ n' < n := by
  simp only [Sample.rank, sampleOf, Prod.Lex.toLex_lt_toLex, OrderDual.toDual_lt_toDual]

theorem rank_sampleOf_le_iff {key key' : String} {n n' : ℕ} :
    (p.sampleOf (key, n)).rank ≤ (p.sampleOf (key', n')).rank ↔
      p.evaluate (bitsOf key) < p.evaluate (bitsOf key') ∨
        p.evaluate (bitsOf key) = p.evaluate (bitsOf key') ∧ n' ≤ n := by
  simp only [Sample.rank, sampleOf, Prod.Lex.toLex_le_toLex, OrderDual.toDual_le_toDual]

/-- A reading of the lowest rank that comes first in the order of the strings is the best. -/
theorem isBest_of_isFirstLowest {s : Sample ℝ}
    (hfirst : IsFirstLowest s (h.entries.filterMap p.sample?)) :
    ∃ key n, p.IsBest h key n ∧ s = p.sampleOf (key, n) := by
  obtain ⟨before, after, hsplit, hbefore, hafter⟩ := hfirst
  -- the split of the samples comes from a split of the entries
  obtain ⟨es, es', hentries, hes, hes'⟩ := List.filterMap_eq_append_iff.1 hsplit
  obtain ⟨skipped, ⟨key, n⟩, rest, rfl, hskipped, hsample, hrest⟩ :=
    List.filterMap_eq_cons_iff.1 hes'
  obtain ⟨hbinary, rfl⟩ := sample?_eq_some_iff.1 hsample
  have hsorted := h.sorted
  rw [hentries, ← List.append_assoc] at hsorted
  have hmem : (key, n) ∈ h.entries := by simp [hentries]
  refine ⟨key, n, ⟨SortedMap.get?_of_mem_entries hmem, hbinary, fun key' n' hcount hbinary' => ?_⟩,
    rfl⟩
  have hsample' : p.sample? (key', n') = some (p.sampleOf (key', n')) :=
    sample?_eq_some_iff.2 ⟨hbinary', rfl⟩
  have hmem' := SortedMap.mem_entries_of_get? hcount
  rw [hentries, List.mem_append, List.mem_append, List.mem_cons] at hmem'
  rcases hmem' with hmem' | hmem' | heq | hmem'
  · -- before it all samples rank higher
    have hlt := hbefore _ (hes ▸ List.mem_filterMap.2 ⟨_, hmem', hsample'⟩)
    exact (rank_sampleOf_lt_iff.1 hlt).imp_right fun ⟨heq, hlt⟩ => ⟨heq, .inl hlt⟩
  · -- directly before it stand strings that are not read
    rw [hskipped _ hmem'] at hsample'
    cases hsample'
  · cases heq
    exact .inr ⟨rfl, .inr ⟨rfl, String.le_refl key⟩⟩
  · -- behind it no sample ranks lower, and the strings are larger
    have hle := hafter _ (hrest ▸ List.mem_filterMap.2 ⟨_, hmem', hsample'⟩)
    have hkey : KeyOrder.lt key key' :=
      (List.pairwise_cons.1 (List.pairwise_append.1 hsorted).2.1).1 _ hmem'
    refine (rank_sampleOf_le_iff.1 hle).imp_right fun ⟨heq, hle⟩ => ⟨heq, ?_⟩
    exact hle.lt_or_eq.imp_right fun heq =>
      ⟨heq, String.not_lt.1 (Entries.not_lt_of_lt hkey)⟩

/-- At most one reading is the best. -/
theorem IsBest.eq {key key' : String} {n n' : ℕ} (hbest : p.IsBest h key n)
    (hbest' : p.IsBest h key' n') : key = key' ∧ n = n' := by
  rcases hbest.least key' n' hbest'.counted hbest'.binary with hlt | ⟨heq, hcount⟩ <;>
    rcases hbest'.least key n hbest.counted hbest.binary with hlt' | ⟨heq', hcount'⟩
  · exact absurd hlt hlt'.asymm
  · exact absurd heq' hlt.ne'
  · exact absurd heq hlt'.ne'
  · -- the objectives agree, so the counts do, and the strings
    rcases hcount with hlt | ⟨rfl, hle⟩ <;> rcases hcount' with hlt' | ⟨heq, hle'⟩
    · omega
    · omega
    · omega
    · exact ⟨String.le_antisymm hle hle', rfl⟩

/-- **The best sample is the optimum of the histogram.** Nothing is returned exactly where no string
consists of zeros and ones; what is returned is the sample of the least such string by objective,
count and string, with the bits that it spells, the objective of these bits, and its count. -/
theorem best_ranks_first (p : Problem ℝ) (h : Histogram) :
    (p.best h = none ↔ ¬ ∃ key n, h.get? key = some n ∧ IsBinary key) ∧
      ∀ s, p.best h = some s ↔ ∃ key n, p.IsBest h key n ∧
        s = ⟨⟨bitsOf key, p.evaluate (bitsOf key)⟩, n⟩ := by
  have hread : (∃ s, s ∈ h.entries.filterMap p.sample?) ↔
      ∃ key n, h.get? key = some n ∧ IsBinary key := by
    simp only [List.mem_filterMap, sample?_eq_some_iff]
    constructor
    · rintro ⟨_, ⟨key, n⟩, hmem, hbinary, -⟩
      exact ⟨key, n, SortedMap.get?_of_mem_entries hmem, hbinary⟩
    · rintro ⟨key, n, hcount, hbinary⟩
      exact ⟨_, _, SortedMap.mem_entries_of_get? hcount, hbinary, rfl⟩
  rw [best, bestOf_eq, ← hread]
  -- without samples nothing is returned; with samples the scan starts with the first as the leader
  cases hsamples : h.entries.filterMap p.sample? with
  | nil =>
    refine ⟨by simp, fun s => ⟨(nomatch ·), ?_⟩⟩
    rintro ⟨key, n, hbest, -⟩
    obtain ⟨s, hs⟩ := hread.2 ⟨key, n, hbest.counted, hbest.binary⟩
    rw [hsamples] at hs
    cases hs
  | cons b samples =>
    obtain ⟨s, hfold, hfirst⟩ := exists_foldl_better b samples
    have hstart : (b :: samples).foldl better none = some s := hfold
    obtain ⟨key, n, hbest, rfl⟩ := isBest_of_isFirstLowest (hsamples ▸ hfirst)
    rw [hstart]
    refine ⟨iff_of_false (by simp) (by simp), fun s => ⟨fun hsome => ?_, ?_⟩⟩
    · exact ⟨key, n, hbest, (Option.some.inj hsome).symm⟩
    · rintro ⟨key', n', hbest', rfl⟩
      obtain ⟨rfl, rfl⟩ := hbest.eq hbest'
      rfl

end Problem

end QuantumWorkbench
