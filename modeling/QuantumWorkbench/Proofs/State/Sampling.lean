import Mathlib
import QuantumWorkbench.Proofs.Search.Annealing
import QuantumWorkbench.Proofs.State.Drawing
import QuantumWorkbench.Proofs.State.Evolution
import QuantumWorkbench.Proofs.State.Histogram

/-!
# What sampling reports

A run of a circuit that measures reads one basis index for each shot, the one on whose stretch the
scaled draw lies. Every draw below one is scaled to less than the total, without rounding and in
double precision as long as the total is above the least normal double; then no index without weight
is ever read. A smaller total is reached by rounding, and what reaches it is read at the last index,
whatever its weight.
-/

namespace QuantumWorkbench

open Double StateVector

/-! ## Draws -/

/-- Draws that are passed on through a function. -/
theorem Random.draws_map {σ β γ : Type} (draw : σ → β × σ) (f : β → γ) (n : ℕ) (s : σ) :
    draws (fun s => (f (draw s).1, (draw s).2)) n s =
      ((draws draw n s).1.map f, (draws draw n s).2) := by
  induction n generalizing s with
  | zero => rfl
  | succ n ih => rw [draws_succ, draws_succ, ih, List.map_cons]

namespace Circuit

section

variable {α σ : Type} [Scalar α] [AmplitudeStore α] {c : Circuit α} {limit shots : ℕ}
  {state : StateVector α}

/-- **A run that measures** counts one reading for each draw. -/
theorem run_eq (hstate : c.state limit = .ok state) (hmeasures : c.measurements ≠ [])
    (hbits : 0 < shots → Storage.holdsBytes c.bits = true) (source : Random.Source σ α) (s : σ) :
    c.run limit shots source s =
      .ok (⟨state, .ofReadings ((Random.draws source.unit shots s).1.map fun r =>
        c.reading (state.pick r)), shots⟩, (Random.draws source.unit shots s).2) := by
  have hmeasures : c.measurements.isEmpty = false := by simpa using hmeasures
  have hstorage : (0 < shots && !Storage.holdsBytes c.bits) = false := by
    cases hpos : decide (0 < shots) with
    | false => rfl
    | true => simp [hbits (of_decide_eq_true hpos)]
  have hdraws : Random.draws (drawIndex state.cumulative source) shots s =
      ((Random.draws source.unit shots s).1.map state.pick,
        (Random.draws source.unit shots s).2) := Random.draws_map source.unit state.pick shots s
  rw [run, hstate]
  simp only [bind, Except.bind, hmeasures, hstorage, sample, hdraws, readings_eq_map, List.map_map]
  rfl

end

/-! ## Samples -/

/-- A histogram counts what a circuit reads from a state for a row of draws. -/
structure IsTally {α : Type} [Scalar α] (c : Circuit α) (state : StateVector α) (draws : List α)
    (counts : Histogram) : Prop where
  /-- The counts add up to the number of shots. -/
  sum : counts.values.sum = draws.length
  /-- A string is counted once for each draw whose index reads as it. -/
  count : ∀ key, (counts.get? key).getD 0 = draws.countP fun r => c.reading (state.pick r) = key
  /-- The string that is returned is the first in order of those counted most often. -/
  most : ∀ key, counts.mostFrequent = some key ↔ counts.IsMost key

/-- A histogram reports what is possible, as often as the draws make it. -/
structure IsSample {α : Type} [Scalar α] (c : Circuit α) (state : StateVector α) (draws : List α)
    (counts : Histogram) : Prop extends c.IsTally state draws counts where
  /-- An index is chosen for the draws whose scaled value lies on its stretch, and for no others. -/
  chosen : ∀ r ∈ draws, ∀ i, state.pick r = i ↔ i < state.dimension ∧
    state.mark i ≤ r * state.total ∧ r * state.total < state.mark (i + 1)
  /-- Whatever is reported is the reading of an index that has weight. -/
  possible : ∀ key n, counts.get? key = some n →
    0 < n ∧ ∃ i < state.dimension, 0 < state.probability i ∧ c.reading i = key

section

variable {α : Type} [Scalar α] {c : Circuit α} {state : StateVector α} {draws : List α}

theorem isTally_ofReadings : c.IsTally state draws
    (.ofReadings (draws.map fun r => c.reading (state.pick r))) where
  sum := by rw [Histogram.sum_values_ofReadings, List.length_map]
  count key := by
    rw [Histogram.getD_get?_ofReadings, List.count, List.countP_map]
    rfl
  most := (Histogram.mostFrequent_spec _).1

variable {D : α → Prop} (hD : AscendingOn D)
include hD

/-- A draw that is scaled below the total is located on a stretch. -/
theorem pick_eq_iff {r : α} (hr : 0 ≤ r) (hbelow : r * state.total < state.total) (i : ℕ) :
    state.pick r = i ↔ i < state.dimension ∧
      state.mark i ≤ r * state.total ∧ r * state.total < state.mark (i + 1) := by
  obtain ⟨hpoint, htotal⟩ := hD.of_lt hbelow
  have hzero := hD.zero_le_mul hpoint hr (zero_le_total hD htotal)
  have hbelow : ¬ state.total ≤ r * state.total := (hD.not_le htotal hpoint).2 hbelow
  have hdim : 0 < state.dimension := by
    apply Nat.pos_of_ne_zero
    intro hdim
    apply hbelow
    rw [total_eq, hdim] at hzero ⊢
    exact hzero
  rw [pick, locate_eq_iff hD htotal hdim hpoint hzero]
  simp [hbelow]

/-- **What is reported is possible where every draw is scaled below the total**, and only there. -/
theorem isSample_iff (hdraws : ∀ r ∈ draws, 0 ≤ r) :
    c.IsSample state draws (.ofReadings (draws.map fun r => c.reading (state.pick r))) ↔
      ∀ r ∈ draws, r * state.total < state.total := by
  constructor
  · intro h r hr
    -- the stretch that the draw lies on ends at the total, or before it
    obtain ⟨hi, -, hlt⟩ := (h.chosen r hr _).1 rfl
    obtain ⟨hpoint, hmark⟩ := hD.of_lt hlt
    have htotal := (hD.of_mul hpoint).2
    apply (hD.not_le htotal hpoint).1
    intro hbeyond
    exact (hD.not_le hmark hpoint).2 hlt (hD.trans (mark_le_total hD htotal hi) hbeyond)
  · intro hbelow
    refine ⟨isTally_ofReadings, fun r hr => pick_eq_iff hD (hdraws r hr) (hbelow r hr), ?_⟩
    intro key n hn
    obtain ⟨hmem, hcount⟩ := Histogram.get?_ofReadings_eq_some hn
    refine ⟨hcount ▸ List.count_pos_iff.2 hmem, ?_⟩
    obtain ⟨r, hr, hread⟩ := List.mem_map.1 hmem
    obtain ⟨hi, hle, hlt⟩ := (pick_eq_iff hD (hdraws r hr) (hbelow r hr) _).1 rfl
    obtain ⟨hpoint, htotal⟩ := hD.of_lt (hbelow r hr)
    exact ⟨_, hi, probability_pos hD htotal hi hpoint hle hlt, hread⟩

end

/-! ## Without rounding -/

/-- A state of length one has a total of one. -/
theorem total_of_norm {s : StateVector ℝ} (h : s.norm = 1) : s.total = 1 := by
  rw [StateVector.norm, Scalar.sum_real, ← total_real] at h
  exact Real.sqrt_eq_one.1 h

/-- **Without rounding** a circuit of unitary gates reports only what is possible. -/
theorem exists_run_isSample {c : Circuit ℝ} {limit shots : ℕ} {σ : Type} {draws : List ℝ}
    (hgates : ∀ g ∈ c.gates, g.LiesIn c.width ∧ g.IsUnitary)
    (hwidth : c.width < 64 ∨ limit < 64) (hsimulated : c.simulated limit = true)
    (hmeasures : c.measurements ≠ []) (hbits : 0 < shots → Storage.holdsBytes c.bits = true)
    {source : Random.Source σ ℝ} {s s' : σ}
    (hsource : Random.draws source.unit shots s = (draws, s'))
    (hdraws : ∀ r ∈ draws, 0 ≤ r ∧ r < 1) :
    ∃ state counts, c.run limit shots source s = .ok (⟨state, counts, shots⟩, s') ∧
      c.IsSample state draws counts := by
  obtain ⟨state, hstate, hnorm⟩ := c.norm_state hgates hwidth hsimulated
  have hrun := run_eq hstate hmeasures hbits source s
  rw [hsource] at hrun
  refine ⟨state, _, hrun, (isSample_iff ascendingOn_real fun r hr => (hdraws r hr).1).2 ?_⟩
  intro r hr
  rw [total_of_norm hnorm, mul_one]
  exact (hdraws r hr).2

/-! ## In double precision -/

/-- **Sampling only reports possible outcomes** exactly where every draw is scaled below the total;
for a total above the least normal double every draw is. A draw that is not scaled below the total
is read at the last index, and for a smaller total there is one. -/
theorem run_reports_possible {c : Circuit Float} {limit shots : ℕ} {state : StateVector Float}
    {σ : Type} {draws : List Float} (hstate : c.state limit = .ok state)
    (hmeasures : c.measurements ≠ []) (hbits : 0 < shots → Storage.holdsBytes c.bits = true)
    {source : Random.Source σ Float} {s s' : σ}
    (hsource : Random.draws source.unit shots s = (draws, s'))
    (hdraws : ∀ r ∈ draws, 0 ≤ r ∧ r < 1) :
    ∃ counts, c.run limit shots source s = .ok (⟨state, counts, shots⟩, s') ∧
      c.IsTally state draws counts ∧
      (c.IsSample state draws counts ↔ ∀ r ∈ draws, r * state.total < state.total) ∧
      (leastNormal < value state.total → c.IsSample state draws counts) ∧
      (∀ r ∈ draws, state.total ≤ r * state.total → state.pick r = state.dimension - 1) ∧
      (0 < value state.total → value state.total ≤ leastNormal →
        ∃ r : Float, 0 ≤ r ∧ r < 1 ∧ state.total ≤ r * state.total) := by
  have hrun := run_eq hstate hmeasures hbits source s
  rw [hsource] at hrun
  have hiff : c.IsSample state draws _ ↔ _ :=
    isSample_iff ascendingOn_double fun r hr => (hdraws r hr).1
  refine ⟨_, hrun, isTally_ofReadings, hiff, ?normal, ?last, ?small⟩
  case normal =>
    intro hnormal
    -- what a fraction leaves off is more than rounding gives back
    exact hiff.2 fun r hr => mul_lt_of_lt_one (hdraws r hr).1 (hdraws r hr).2 hnormal
  case last =>
    intro r _ hbeyond
    obtain ⟨htotal, hpoint⟩ := isNaN_eq_false_of_le hbeyond
    exact locate_of_total_le ascendingOn_double htotal hpoint hbeyond
  case small =>
    intro hpos hsmall
    obtain ⟨hzero, hone, -⟩ := belowOne_spec
    refine ⟨belowOne, hzero, hone, ?_⟩
    -- the draw is scaled to the total itself
    rw [belowOne_mul_eq hpos hsmall]
    exact ascendingOn_double.refl (isNaN_eq_false_of_value_pos hpos)

/-- A source whose fractions are all the same. -/
def constantly {α : Type} (r : α) : Random.Source Unit α :=
  ⟨fun s => (0, s), fun _ s => (0, s), fun s => (r, s)⟩

theorem draws_constantly {α : Type} (r : α) (n : ℕ) :
    Random.draws (constantly r).unit n () = (List.replicate n r, ()) := by
  induction n with
  | zero => rfl
  | succ n ih =>
    have hunit : (constantly r).unit () = (r, ()) := rfl
    rw [Random.draws_succ, hunit, ih, List.replicate_succ]

/-- A qubit that is one for certain, measured. -/
def flipped : Circuit Float := ((blank 1 1).appendGates [Gate.plain .x [0]]).measureAll

/-- The state that the gates of a circuit make, without the checks. -/
def made {α : Type} [Scalar α] (c : Circuit α) : StateVector α :=
  .measured (Gate.actAll c.gates (StateVector.basis c.width 0).amplitudes) c.width

theorem run_reports_possible_flipped :
    flipped.state 24 = .ok flipped.made ∧ leastNormal < value flipped.made.total ∧
      ∃ counts, flipped.run 24 5 (constantly belowOne) () =
          .ok (⟨flipped.made, counts, 5⟩, ()) ∧
        flipped.IsSample flipped.made (List.replicate 5 belowOne) counts := by
  have hstate : flipped.state 24 = .ok flipped.made :=
    state_of_inside (by decide) (by decide) (by decide)
  have hnormal : leastNormal < value flipped.made.total :=
    (zpow_lt_one_of_neg₀ one_lt_two (by decide)).trans_le (by decide +kernel)
  obtain ⟨hzero, hone, -⟩ := belowOne_spec
  obtain ⟨counts, hrun, -, -, hsample, -⟩ := run_reports_possible hstate (by decide)
    (fun _ => by decide) (draws_constantly belowOne 5)
    (List.forall_mem_replicate.2 (.inr ⟨hzero, hone⟩))
  exact ⟨hstate, hnormal, counts, hrun, hsample hnormal⟩

/-- An amplitude whose weight is rounded to the least double. -/
def faintAmplitude : Float := 2e-162

/-- A qubit that is zero, with its amplitude scaled down, measured. -/
def faint : Circuit Float :=
  { (blank 1 1).measureAll with
    gates := [⟨.custom, [0], .empty, some (.ofRows [[⟨faintAmplitude, 0⟩, 0], [0, 1]]), 1⟩] }

theorem built_faint : faint.Built :=
  List.forall_mem_singleton.2
    ⟨.ofParts (Gate.ofParts_one 0 ⟨faintAmplitude, 0⟩ 0 0 1), by decide⟩

/-- **Sampling reports impossible outcomes**: the draw is scaled to the total, and the last index is
read, which has no weight. -/
theorem not_reports_possible_faint :
    ¬ ∀ {c : Circuit Float} {limit shots : ℕ} {state : StateVector Float} {σ : Type}
      {draws : List Float}, c.Built → c.state limit = .ok state → 0 < state.total →
      c.measurements ≠ [] → (0 < shots → Storage.holdsBytes c.bits = true) →
      ∀ {source : Random.Source σ Float} {s s' : σ},
      Random.draws source.unit shots s = (draws, s') → (∀ r ∈ draws, 0 ≤ r ∧ r < 1) →
      ∃ counts, c.run limit shots source s = .ok (⟨state, counts, shots⟩, s') ∧
        c.IsSample state draws counts := by
  intro h
  have hstate : faint.state 24 = .ok faint.made :=
    state_of_inside (by decide) (by decide) (by decide)
  obtain ⟨hzero, hone, -⟩ := belowOne_spec
  obtain ⟨counts, hrun, hsample⟩ := h built_faint hstate (by decide +kernel) (by decide)
    (fun _ => by decide) (draws_constantly belowOne 1)
    (List.forall_mem_replicate.2 (.inr ⟨hzero, hone⟩))
  -- the one draw is counted under the reading of the last index
  rw [run_eq hstate (by decide) (fun _ => by decide)] at hrun
  cases hrun
  obtain ⟨-, i, hi, hweight, hread⟩ := hsample.possible "1" 1 (by decide +kernel)
  have hdim : faint.made.dimension = 2 := by decide +kernel
  rw [hdim] at hi
  interval_cases i
  · exact absurd hread (by decide)
  · exact absurd hweight (by decide +kernel)

end Circuit

end QuantumWorkbench
