import Mathlib
import QuantumWorkbench.Proofs.Qubo.Zeros
import QuantumWorkbench.Proofs.Search.Annealing
import QuantumWorkbench.Proofs.Search.Scoring

/-!
# No search falls below the exhaustive minimum

The three searches for a good assignment report values of the same objective: exhaustive search,
annealing, and sampling of the alternating circuit. Each reports the value of exactly the bits it
returns, so in double precision, where every value is defined, none of them falls below the value
that exhaustive search finds. Exhaustive search compares ranks; since the values never include both
zeros, the first assignment of least rank is the first of least value.
-/

namespace QuantumWorkbench

instance : Scalar.IsRanked Float where
  total x y := by
    simp only [Scalar.atMost, decide_eq_true_eq]
    exact UInt64.le_total _ _
  trans x y z := by
    simp only [Scalar.atMost, decide_eq_true_eq]
    exact UInt64.le_trans

namespace Qubo

/-- A solution with the bits of an index, of least value among all assignments, and of a smaller
value than those of lower index. -/
structure IsFirstMinimum (q : Qubo Float) (index : ℕ) (best : Solution Float) : Prop where
  index_lt : index < 2 ^ q.width
  bits : best.bits = Solution.bitsOfIndex index q.width
  scores : q.Scores best
  le : ∀ bits, q.Assigns bits → best.energy ≤ q.evaluate bits
  lt : ∀ i < index, best.energy < q.evaluate (Solution.bitsOfIndex i q.width)

variable {q : Qubo Float}

/-- **Exhaustive search finds the first assignment of least value.** -/
theorem exists_isFirstMinimum (hpos : 0 < q.width) (hsmall : q.width ≤ maxExhaustive)
    (hdefined : ∀ bits, q.Assigns bits → (q.evaluate bits).isNaN = false) :
    ∃ index best, q.minimum = .ok best ∧ q.IsFirstMinimum index best := by
  obtain ⟨index, hindex, best, hmin, hbits, hscores, hleast, hfirst⟩ :=
    exists_minimum q hpos hsmall
  have hbest := hdefined best.bits hscores.assigns
  refine ⟨index, best, hmin, hindex, hbits, hscores, fun bits hassigns => ?_, fun i hi => ?_⟩
  · have hrank := of_decide_eq_true (hleast bits hassigns)
    rw [hscores.energy] at hrank ⊢
    exact Double.le_of_rank_le hbest (hdefined bits hassigns) hrank
  · have hassigns := assigns_bitsOfIndex q i
    have hrank : Double.rank best.energy < Double.rank (q.evaluate _) :=
      UInt64.not_le.1 fun hle => Scalar.before_iff.1 (hfirst i hi) (decide_eq_true hle)
    rw [hscores.energy] at hrank ⊢
    refine Double.lt_of_rank_lt hbest (hdefined _ hassigns) hrank ?_
    exact sign_evaluate_negative hscores.assigns.binary hassigns.binary
      (hassigns.length.trans hscores.assigns.length.symm) (hdefined _ hassigns)

/-- The searches that draw at random report assignments with their values, and none below a bound:
annealing by any accepted schedule whose samples can be stored, and sampling of the alternating
circuit with any angles. -/
structure BoundsSearches (q : Qubo Float) (bound : Float) : Prop where
  annealing : ∀ {σ : Type} (source : Random.Source σ Float) (schedule : Annealing.Schedule Float)
    (seed : ℕ → σ), (∀ s, (source.bit s).1 < 2) → schedule.check = .ok () →
    Storage.holdsSolutions schedule.reads = true →
    ∃ samples, Annealing.sample q source schedule seed = .ok samples ∧
      samples.length = schedule.reads ∧ ∀ s ∈ samples, q.Scores s ∧ bound ≤ s.energy
  alternating : ∀ {σ : Type} (p : Problem Float) (gammas betas : List Float) (limit shots : ℕ)
    (source : Random.Source σ Float) (s : σ) (sample : Problem.Sample Float),
    p.qubo? = some q →
    p.sampleAlternating gammas betas limit shots source s = .ok (some sample) →
    q.Scores sample.solution ∧ bound ≤ sample.solution.energy

theorem IsFirstMinimum.boundsSearches {index : ℕ} {best : Solution Float}
    (h : q.IsFirstMinimum index best) (hpos : 0 < q.width) (hsmall : q.width ≤ maxExhaustive) :
    q.BoundsSearches best.energy := by
  -- whatever scores an assignment is bounded
  have hbound {s : Solution Float} (hs : q.Scores s) : q.Scores s ∧ best.energy ≤ s.energy :=
    ⟨hs, hs.energy ▸ h.le s.bits hs.assigns⟩
  have hwidth : Storage.holdsBytes q.width = true := decide_eq_true (by
    rw [one_mul]
    exact hsmall.trans_lt (by decide))
  refine ⟨?_, ?_⟩
  · intro σ source schedule seed hbit hcheck hreads
    obtain ⟨samples, hsamples, hlength⟩ :=
      Annealing.exists_sample hcheck hpos hwidth hreads source seed
    exact ⟨samples, hsamples, hlength, fun s hs =>
      hbound (Annealing.scores_of_sample hbit hsamples s hs)⟩
  · intro σ p gammas betas limit shots source s sample hq hsample
    exact hbound (Problem.scores_of_sampleAlternating hq hsample)

/-- **No search reports a value below the exhaustive minimum.** -/
theorem exists_minimum_boundsSearches (q : Qubo Float) (hpos : 0 < q.width)
    (hsmall : q.width ≤ maxExhaustive)
    (hdefined : ∀ bits, q.Assigns bits → (q.evaluate bits).isNaN = false) :
    ∃ index best, q.minimum = .ok best ∧ q.IsFirstMinimum index best ∧
      q.BoundsSearches best.energy := by
  obtain ⟨index, best, hmin, hfirst⟩ := exists_isFirstMinimum hpos hsmall hdefined
  exact ⟨index, best, hmin, hfirst, hfirst.boundsSearches hpos hsmall⟩

/-- Two variables of which either alone gives minus one, and both together nothing. -/
def eitherAlone : Qubo Float :=
  ofTerms 2 [(0, 0, -Scalar.num 1), (0, 1, Scalar.num 2), (1, 1, -Scalar.num 1)]

theorem isNaN_evaluate_eitherAlone (bits : List ℕ) (hbits : eitherAlone.Assigns bits) :
    (eitherAlone.evaluate bits).isNaN = false := by
  have hall : ∀ x < 2 ^ eitherAlone.width,
      (eitherAlone.evaluate (Solution.bitsOfIndex x eitherAlone.width)).isNaN = false := by
    decide +kernel
  obtain ⟨x, hx, rfl⟩ := hbits.exists_index
  exact hall x hx

theorem minimum_eitherAlone : eitherAlone.minimum = .ok ⟨[1, 0], -Scalar.num 1⟩ := by
  have hbest : eitherAlone.minimum.toOption.map (fun s => (s.bits, s.energy)) =
      some ([1, 0], -Scalar.num 1) := by decide +kernel
  cases hmin : eitherAlone.minimum with
  | error e =>
    rw [hmin] at hbest
    exact nomatch hbest
  | ok best =>
    rw [hmin] at hbest
    obtain ⟨hbits, henergy⟩ := Prod.mk.inj (Option.some.inj hbest)
    rw [← hbits, ← henergy]

/-- Annealing with the seeded generator is among the searches that are bounded. -/
theorem exists_minimum_boundsSearches_eitherAlone :
    eitherAlone.minimum = .ok ⟨[1, 0], -Scalar.num 1⟩ ∧
      eitherAlone.IsFirstMinimum 1 ⟨[1, 0], -Scalar.num 1⟩ ∧
      eitherAlone.BoundsSearches (-Scalar.num 1) ∧
      ∀ seed, ∃ samples,
        Annealing.sample eitherAlone Random.Generator.source .standard seed = .ok samples ∧
          samples.length = 10 ∧ ∀ s ∈ samples, eitherAlone.Scores s ∧ -Scalar.num 1 ≤ s.energy := by
  obtain ⟨index, best, hbest, hfirst, hbounds⟩ := exists_minimum_boundsSearches eitherAlone
    (by decide) (by decide) isNaN_evaluate_eitherAlone
  obtain rfl := Except.ok.inj (hbest.symm.trans minimum_eitherAlone)
  -- of the four indices only this one has these bits
  have hindex : ∀ x < 4, [1, 0] = Solution.bitsOfIndex x 2 → x = 1 := by decide
  obtain rfl := hindex index hfirst.index_lt hfirst.bits
  have hcheck : (Annealing.Schedule.standard : Annealing.Schedule Float).check = .ok () := rfl
  exact ⟨minimum_eitherAlone, hfirst, hbounds, fun seed =>
    hbounds.annealing _ _ seed Random.Generator.bit_lt_two hcheck (by decide)⟩

end Qubo

end QuantumWorkbench
