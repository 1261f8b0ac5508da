import Mathlib
import QuantumWorkbench.Proofs.State.Reduction

/-!
# States that are made

A state carries its width, its entropy and its coherence beside its amplitudes. Whichever operations
it comes from, recomputing the two measures changes nothing: they are the entropy of the outcomes
and the sum off the diagonal of the density matrix. The number of amplitudes is the power of two
that a word of 64 bits gives for the width, so it is right exactly for widths below 64.
-/

namespace QuantumWorkbench

open Register

namespace StateVector

/-! ## Measures as sums -/

/-- The entropy in bits of the outcomes of a wave; those up to the tolerance add nothing. -/
noncomputable def outcomeBits (d : ℕ) (ψ : Wave) : ℝ :=
  ∑ x ∈ Finset.range d, if Scalar.tolerance < Complex.normSq (ψ x) then
    -Complex.normSq (ψ x) * Real.logb 2 (Complex.normSq (ψ x)) else 0

/-- The sum of the absolute values off the diagonal of the density matrix of a wave. -/
noncomputable def offDiagonal (d : ℕ) (ψ : Wave) : ℝ :=
  ∑ x ∈ Finset.range d, ∑ y ∈ (Finset.range d).erase x, ‖ψ x * (starRingEnd ℂ) (ψ y)‖

/-- A sum over the amplitudes of a vector, from front to back. -/
theorem foldl_add_eq_sum (f : Amplitude ℝ → ℝ) (v : Array (Amplitude ℝ)) :
    v.foldl (fun sum a => sum + f a) 0 = ∑ x ∈ Finset.range v.size, f (v.getD x 0) := by
  have hitems : v.toList.map f = (List.range v.size).map fun x => f (v.getD x 0) := by
    apply List.ext_getElem (by simp)
    intro x hx _
    have hlt : x < v.size := by simpa using hx
    simp [hlt]
  calc v.foldl (fun sum a => sum + f a) 0
      = (v.toList.map f).foldl (· + ·) 0 := by rw [List.foldl_map, Array.foldl_toList]
    _ = (v.toList.map f).sum := List.sum_eq_foldl.symm
    _ = ∑ x ∈ Finset.range v.size, f (v.getD x 0) := by
        rw [hitems]
        rfl

theorem outcomeEntropy_eq_bits (v : Array (Amplitude ℝ)) :
    outcomeEntropy v = outcomeBits v.size (wave v) := by
  -- what a weight adds does not depend on what was added before
  have hstep : (fun (entropy : ℝ) (a : Amplitude ℝ) => addEntropy entropy a.probability) =
      fun entropy a => entropy + if Scalar.tolerance < Complex.normSq a.toComplex then
        -Complex.normSq a.toComplex * Real.logb 2 (Complex.normSq a.toComplex) else 0 := by
    funext entropy a
    have hweight : a.probability = Complex.normSq a.toComplex := rfl
    rw [addEntropy, hweight]
    split
    · rfl
    · rw [add_zero]
  have hstart : (-0 : ℝ) = 0 := neg_zero
  rw [outcomeEntropy, hstep, hstart, foldl_add_eq_sum]
  rfl

theorem magnitude_eq_norm (a : Amplitude ℝ) : a.magnitude = ‖a.toComplex‖ :=
  (Complex.norm_eq_sqrt_sq_add_sq a.toComplex).symm

theorem coherenceOf_eq_offDiagonal (v : Array (Amplitude ℝ)) :
    coherenceOf v = offDiagonal v.size (wave v) := by
  let m : ℕ → ℝ := fun x => ‖wave v x‖
  have htotal : v.foldl (fun sum a => sum + a.magnitude) 0 = ∑ x ∈ Finset.range v.size, m x := by
    rw [foldl_add_eq_sum]
    exact Finset.sum_congr rfl fun x _ => magnitude_eq_norm _
  have hsquares : v.foldl (fun sum a => sum + a.magnitude * a.magnitude) 0 =
      ∑ x ∈ Finset.range v.size, m x * m x := by
    rw [foldl_add_eq_sum]
    exact Finset.sum_congr rfl fun x _ => by rw [magnitude_eq_norm]; rfl
  have hpair : ∀ x y, ‖wave v x * (starRingEnd ℂ) (wave v y)‖ = m x * m y := by
    intro x y
    rw [norm_mul, RCLike.norm_conj]
  -- each row of the square of the sum is its diagonal place and the others
  have hrows : (∑ x ∈ Finset.range v.size, m x) * ∑ x ∈ Finset.range v.size, m x =
      (∑ x ∈ Finset.range v.size, m x * m x) + offDiagonal v.size (wave v) := by
    rw [Finset.sum_mul_sum, offDiagonal, ← Finset.sum_add_distrib]
    apply Finset.sum_congr rfl
    intro x hx
    simp only [hpair]
    exact (Finset.add_sum_erase _ (fun y => m x * m y) hx).symm
  have hnonneg : 0 ≤ offDiagonal v.size (wave v) :=
    Finset.sum_nonneg fun x _ => Finset.sum_nonneg fun y _ => norm_nonneg _
  rw [coherenceOf, htotal, hsquares, hrows, add_sub_cancel_left]
  split
  · rfl
  · next hnot => exact le_antisymm hnonneg (not_lt.1 hnot)

/-! ## Scaling to length one -/

section

variable {s t : StateVector ℝ}

theorem normalized_of_lt (h : s.norm < Scalar.tolerance) : s.normalized = s := if_pos h

theorem normalized_of_le (h : Scalar.tolerance ≤ s.norm) :
    s.normalized = measured (s.amplitudes.map fun a => a.scaleDown s.norm) s.width :=
  if_neg (not_lt.2 h)

/-- Every amplitude is divided by the length. -/
theorem wave_normalized (h : Scalar.tolerance ≤ s.norm) (x : ℕ) :
    wave s.normalized.amplitudes x = wave s.amplitudes x / s.norm := by
  have hitem : s.normalized.amplitudes.getD x 0 = (s.amplitudes.getD x 0).scaleDown s.norm := by
    rw [normalized_of_le h]
    simp only [measured, Array.getD_eq_getD_getElem?, Array.getElem?_map]
    cases s.amplitudes[x]? with
    | none => exact congrArg₂ Amplitude.mk (zero_div _).symm (zero_div _).symm
    | some a => rfl
  rw [wave, hitem, wave]
  refine Complex.ext ?_ ?_
  · rw [Complex.div_ofReal_re]
    rfl
  · rw [Complex.div_ofReal_im]
    rfl

theorem dimension_normalized (s : StateVector ℝ) : s.normalized.dimension = s.dimension := by
  by_cases h : s.norm < Scalar.tolerance
  · rw [normalized_of_lt h]
  · rw [normalized_of_le (not_lt.1 h)]
    exact Array.size_map

theorem width_normalized (s : StateVector ℝ) : s.normalized.width = s.width := by
  by_cases h : s.norm < Scalar.tolerance
  · rw [normalized_of_lt h]
  · rw [normalized_of_le (not_lt.1 h)]
    rfl

theorem nonneg_norm (s : StateVector ℝ) : 0 ≤ s.norm := Real.sqrt_nonneg _

/-- **A vector that is long enough is scaled to length one**. -/
theorem norm_normalized (h : Scalar.tolerance ≤ s.norm) : s.normalized.norm = 1 := by
  have hpos : 0 < s.norm := Scalar.tolerance_pos.trans_le h
  have hweight : ∀ x, s.normalized.probability x = s.probability x / s.norm ^ 2 := by
    intro x
    rw [probability_eq, probability_eq, wave_normalized h, Complex.normSq_div,
      Complex.normSq_ofReal, pow_two]
  have hsq : s.normalized.norm ^ 2 = 1 := by
    rw [sq_norm, dimension_normalized, Finset.sum_congr rfl fun x _ => hweight x,
      ← Finset.sum_div, ← sq_norm, div_self (pow_pos hpos 2).ne']
  exact (pow_eq_one_iff_of_nonneg s.normalized.nonneg_norm two_ne_zero).1 hsq

/-- A state of length one whose measures are those of its vector is scaled to itself. -/
theorem normalized_of_norm_one (h : s.norm = 1) (hcurrent : measured s.amplitudes s.width = s) :
    s.normalized = s := by
  have hle : Scalar.tolerance ≤ s.norm := by
    rw [h, Scalar.tolerance_real]
    norm_num
  have hscale : s.amplitudes.map (fun a => a.scaleDown s.norm) = s.amplitudes := by
    refine Array.map_id'' (fun a => ?_) _
    rw [h]
    exact congrArg₂ Amplitude.mk (div_one _) (div_one _)
  rw [normalized_of_le hle, hscale, hcurrent]

/-- Scaling twice is scaling once. -/
theorem normalized_normalized (h : Scalar.tolerance ≤ s.norm) :
    s.normalized.normalized = s.normalized := by
  refine normalized_of_norm_one (norm_normalized h) ?_
  rw [normalized_of_le h]
  rfl

/-! ## Ways to make a state -/

/-- The states that are made: from amplitudes, as basis states of the widths that are asked for, the
one with every qubit at zero among them, by scaling, as products that can be stored, as reductions,
and by the simulation of circuits. -/
inductive Obtainable (asked : ℕ → Prop) : StateVector ℝ → Prop where
  | ofAmplitudes {v : Array (Amplitude ℝ)} {s : StateVector ℝ} (h : ofAmplitudes v = .ok s) :
      Obtainable asked s
  | basis {n index : ℕ} {s : StateVector ℝ} (hn : asked n) (h : storedBasis n index = .ok s) :
      Obtainable asked s
  | normalized {s : StateVector ℝ} (hs : Obtainable asked s) : Obtainable asked s.normalized
  | tensor {s t : StateVector ℝ} (hs : Obtainable asked s) (ht : Obtainable asked t)
      (hstored : Storage.holdsPairs (s.dimension * t.dimension) = true) :
      Obtainable asked (s.tensor t)
  | partialTrace {s t : StateVector ℝ} {traced : List ℕ} (hs : Obtainable asked s)
      (h : s.partialTrace traced = .ok t) : Obtainable asked t
  | simulated {c : Circuit ℝ} {limit : ℕ} {s : StateVector ℝ} (h : c.state limit = .ok s) :
      Obtainable asked s

/-- A reduction ends by wrapping a vector. -/
theorem exists_ofAmplitudes_of_partialTrace {traced : List ℕ} (h : s.partialTrace traced = .ok t) :
    ∃ v, StateVector.ofAmplitudes v = .ok t := by
  unfold StateVector.partialTrace at h
  split at h
  · cases h
  · dsimp only at h
    split at h
    · cases h
    · split at h
      · cases h
      · exact ⟨_, h⟩

/-! ## What each way keeps -/

theorem dimension_eq_two_pow_mod (n : ℕ) : Qubit.dimension n = 2 ^ (n % 64) := Nat.one_shiftLeft _

/-- A word gives the power of two of every width below its own. -/
theorem dimension_eq_two_pow_iff (n : ℕ) : Qubit.dimension n = 2 ^ n ↔ n < 64 := by
  refine ⟨fun h => ?_, dimension_eq⟩
  have hmod : n % 64 = n :=
    Nat.pow_right_injective le_rfl ((dimension_eq_two_pow_mod n).symm.trans h)
  omega

/-- A state with the measures of its vector, and with as many amplitudes as a word gives for its
width. -/
structure IsCurrent (s : StateVector ℝ) : Prop where
  recompute : measured s.amplitudes s.width = s
  size : s.dimension = Qubit.dimension s.width

/-- **From amplitudes**: both measures are computed when the vector is taken. -/
theorem isCurrent_of_ofAmplitudes {v : Array (Amplitude ℝ)}
    (h : StateVector.ofAmplitudes v = .ok s) : s.IsCurrent := by
  obtain ⟨hsize, rfl⟩ := ofAmplitudes_eq_ok_iff.1 h
  exact ⟨rfl, hsize⟩

theorem width_lt_of_ofAmplitudes {v : Array (Amplitude ℝ)}
    (h : StateVector.ofAmplitudes v = .ok s) : s.width < 64 := by
  obtain ⟨hsize, rfl⟩ := ofAmplitudes_eq_ok_iff.1 h
  exact log2_lt_of_eq_dimension hsize

/-- One certain outcome leaves nothing to measure. -/
theorem outcomeBits_single (d x : ℕ) : outcomeBits d (Pi.single x 1) = 0 := by
  apply Finset.sum_eq_zero
  intro y _
  by_cases hy : y = x
  · simp [hy]
  · simp [hy]

theorem offDiagonal_single (d x : ℕ) : offDiagonal d (Pi.single x 1) = 0 := by
  apply Finset.sum_eq_zero
  intro y _
  apply Finset.sum_eq_zero
  intro z hz
  have hne : z ≠ y := Finset.ne_of_mem_erase hz
  by_cases hy : y = x
  · have hzx : z ≠ x := fun h => hne (h.trans hy.symm)
    simp [hzx]
  · simp [hy]

/-- **The zeros of a basis state** are what its measures come to. -/
theorem isCurrent_basis (n index : ℕ) : (basis n index : StateVector ℝ).IsCurrent := by
  have hpos : 0 < Qubit.dimension n := by
    rw [dimension_eq_two_pow_mod]
    exact Nat.two_pow_pos _
  have hsame : (basis n index : StateVector ℝ).amplitudes =
      (basis n (index % Qubit.dimension n) : StateVector ℝ).amplitudes := by
    simp [basis]
  have hwave : wave (basis n index : StateVector ℝ).amplitudes =
      Pi.single (index % Qubit.dimension n) 1 := by
    rw [hsame]
    exact wave_basis (Nat.mod_lt _ hpos)
  have hentropy : outcomeEntropy (basis n index : StateVector ℝ).amplitudes = 0 := by
    rw [outcomeEntropy_eq_bits, hwave, outcomeBits_single]
  have hcoherence : coherenceOf (basis n index : StateVector ℝ).amplitudes = 0 := by
    rw [coherenceOf_eq_offDiagonal, hwave, offDiagonal_single]
  refine ⟨?_, size_amplitudes_basis n index⟩
  rw [measured, hentropy, hcoherence]
  rfl

theorem IsCurrent.normalized (hs : s.IsCurrent) : s.normalized.IsCurrent where
  recompute := by
    by_cases h : s.norm < Scalar.tolerance
    · rw [normalized_of_lt h]
      exact hs.recompute
    · rw [normalized_of_le (not_lt.1 h)]
      rfl
  size := by rw [dimension_normalized, width_normalized, hs.size]

section

variable (hs : s.IsCurrent) (ht : t.IsCurrent)
  (hstored : Storage.holdsPairs (s.dimension * t.dimension) = true)
include hs ht hstored

/-- The bits of the indices of a product that can be stored fit a word. -/
theorem IsCurrent.bits_lt : s.width % 64 + t.width % 64 < 64 := by
  apply Storage.width_lt_of_holdsPairs
  rwa [pow_add, ← dimension_eq_two_pow_mod, ← dimension_eq_two_pow_mod, ← hs.size, ← ht.size]

theorem IsCurrent.tensor : (s.tensor t).IsCurrent where
  recompute := rfl
  size := by
    have hbits := hs.bits_lt ht hstored
    -- the width wraps at a multiple of the bits of a word
    have hwrap : Index.wrap (s.width + t.width) % 64 = s.width % 64 + t.width % 64 := by
      have hlimit : Index.limit = 64 * 2 ^ 58 := by decide
      rw [Index.wrap, hlimit, Nat.mod_mul_right_mod, Nat.add_mod, Nat.mod_eq_of_lt hbits]
    calc (s.tensor t).dimension = s.dimension * t.dimension := size_tensor t s
      _ = 2 ^ (s.width % 64 + t.width % 64) := by
        rw [hs.size, ht.size, dimension_eq_two_pow_mod, dimension_eq_two_pow_mod, pow_add]
      _ = Qubit.dimension (s.tensor t).width := by
        rw [dimension_eq_two_pow_mod, ← hwrap]
        rfl

end

end

/-! ## Every state -/

variable {asked : ℕ → Prop} {s : StateVector ℝ}

/-- **The run**: whatever a state was made by, its measures are those of its vector. -/
theorem Obtainable.isCurrent (hs : Obtainable asked s) : s.IsCurrent := by
  induction hs with
  | ofAmplitudes h => exact isCurrent_of_ofAmplitudes h
  | basis _ h =>
    obtain ⟨-, rfl⟩ := storedBasis_eq_ok_iff.1 h
    exact isCurrent_basis _ _
  | normalized _ ih => exact ih.normalized
  | tensor _ _ hstored ihs iht => exact ihs.tensor iht hstored
  | partialTrace _ h _ =>
    obtain ⟨v, hv⟩ := exists_ofAmplitudes_of_partialTrace h
    exact isCurrent_of_ofAmplitudes hv
  | simulated h => exact isCurrent_of_ofAmplitudes (Circuit.ofAmplitudes_of_state h)

/-- No operation leads beyond the widths of a word, as long as no basis state does. -/
theorem Obtainable.width_lt
    (hasked : ∀ n, asked n → Storage.holdsPairs (Qubit.dimension n) = true → n < 64)
    (hs : Obtainable asked s) : s.width < 64 := by
  induction hs with
  | ofAmplitudes h => exact width_lt_of_ofAmplitudes h
  | basis hn h =>
    obtain ⟨hstored, rfl⟩ := storedBasis_eq_ok_iff.1 h
    exact hasked _ hn hstored
  | normalized _ ih => rwa [width_normalized]
  | tensor hs ht hstored ihs iht =>
    have hbits := hs.isCurrent.bits_lt ht.isCurrent hstored
    rw [Nat.mod_eq_of_lt ihs, Nat.mod_eq_of_lt iht] at hbits
    exact (Index.wrap_le _).trans_lt hbits
  | partialTrace _ h _ =>
    obtain ⟨v, hv⟩ := exists_ofAmplitudes_of_partialTrace h
    exact width_lt_of_ofAmplitudes hv
  | simulated h => exact width_lt_of_ofAmplitudes (Circuit.ofAmplitudes_of_state h)

/-- The number of amplitudes is the power of two of the width just where a word holds that. -/
theorem IsCurrent.dimension_eq_iff (hs : s.IsCurrent) :
    s.dimension = 2 ^ s.width ↔ s.width < 64 := by
  rw [hs.size, dimension_eq_two_pow_iff]

/-- **States keep their measures up to date.** Whichever operations a state was made by, recomputing
its measures gives the state again: its entropy is that of the outcomes of its vector in bits,
without those up to the tolerance, and its coherence is the sum of the absolute values off the
diagonal of the density matrix of its vector. The number of its amplitudes is the power of two that
a word of 64 bits gives for its width; this is the power of the width itself for widths below 64 and
no others, so it is right for all states that can be made exactly if no basis state of more qubits
is asked for. Scaling divides every amplitude of a vector that is long enough by its length, gives a
vector of length one and, done once more, changes nothing. -/
theorem obtainable_upToDate (asked : ℕ → Prop) :
    (∀ {s : StateVector ℝ}, Obtainable asked s →
      measured s.amplitudes s.width = s ∧
      s.entropy = outcomeBits s.dimension (wave s.amplitudes) ∧
      s.coherence = offDiagonal s.dimension (wave s.amplitudes) ∧
      s.dimension = Qubit.dimension s.width ∧ (s.dimension = 2 ^ s.width ↔ s.width < 64)) ∧
    ((∀ s : StateVector ℝ, Obtainable asked s → s.dimension = 2 ^ s.width) ↔
      ∀ n, asked n → Storage.holdsPairs (Qubit.dimension n) = true → n < 64) ∧
    ∀ {s : StateVector ℝ}, Scalar.tolerance ≤ s.norm →
      (∀ x, wave s.normalized.amplitudes x = wave s.amplitudes x / s.norm) ∧
      s.normalized.norm = 1 ∧ s.normalized.normalized = s.normalized := by
  refine ⟨?measures, ?width, fun hlong =>
    ⟨wave_normalized hlong, norm_normalized hlong, normalized_normalized hlong⟩⟩
  case measures =>
    intro s hs
    have hcurrent := hs.isCurrent
    have hentropy : s.entropy = outcomeEntropy s.amplitudes :=
      (congrArg StateVector.entropy hcurrent.recompute).symm
    have hcoherence : s.coherence = coherenceOf s.amplitudes :=
      (congrArg StateVector.coherence hcurrent.recompute).symm
    exact ⟨hcurrent.recompute, hentropy.trans (outcomeEntropy_eq_bits _),
      hcoherence.trans (coherenceOf_eq_offDiagonal _), hcurrent.size, hcurrent.dimension_eq_iff⟩
  case width =>
    constructor
    · intro hright n hn hstored
      have hmade : Obtainable asked (basis n 0 : StateVector ℝ) := .basis hn (if_pos hstored)
      exact hmade.isCurrent.dimension_eq_iff.1 (hright _ hmade)
    · intro hasked s hs
      exact hs.isCurrent.dimension_eq_iff.2 (hs.width_lt hasked)

/-- Amplitudes one and two on one qubit, above the second basis state of two qubits. -/
noncomputable def stretched : StateVector ℝ := (measured #[1, .real 2] 1).tensor (basis 2 1)

theorem obtainable_stretched : Obtainable (· = 2) stretched :=
  .tensor (.ofAmplitudes (ofAmplitudes_of_size (n := 1) (by decide) rfl))
    (.basis rfl (if_pos (by decide))) (by decide)

theorem obtainable_upToDate_stretched :
    Obtainable (· = 2) stretched.normalized ∧
    stretched.normalized.coherence =
      offDiagonal stretched.normalized.dimension (wave stretched.normalized.amplitudes) ∧
    stretched.normalized.dimension = 2 ^ stretched.normalized.width ∧
    stretched.normalized.norm = 1 ∧
    stretched.normalized.normalized = stretched.normalized := by
  obtain ⟨hmeasures, hwidths, hscaled⟩ := obtainable_upToDate (· = 2)
  have hmade : Obtainable (· = 2) stretched.normalized := .normalized obtainable_stretched
  have hdimension : stretched.dimension = 8 := obtainable_stretched.isCurrent.size
  -- one outcome alone makes the vector long enough
  have houtcome : stretched.probability 1 = (1 * 1 + 0 * 0) * (1 * 1 + 0 * 0) :=
    probability_tensor (t := basis 2 1) ⟨rfl, by decide⟩ 1
  have hsq : stretched.probability 1 ≤ stretched.norm ^ 2 := by
    rw [sq_norm]
    exact Finset.single_le_sum (fun x _ => stretched.probability_nonneg x)
      (Finset.mem_range.2 (by omega))
  have hlong : Scalar.tolerance ≤ stretched.norm := by
    rw [Scalar.tolerance_real]
    nlinarith [stretched.nonneg_norm]
  refine ⟨hmade, (hmeasures hmade).2.2.1, ?_, (hscaled hlong).2⟩
  exact hwidths.2 (fun n hn _ => by omega) _ hmade

/-- A basis state of 64 qubits has one amplitude: the power of two leaves the word. -/
theorem not_counted_wide :
    Obtainable (· = 64) (basis 64 0 : StateVector ℝ) ∧
      (basis 64 0 : StateVector ℝ).dimension = 1 ∧ (basis 64 0 : StateVector ℝ).width = 64 ∧
      ¬ ∀ s : StateVector ℝ, Obtainable (· = 64) s → s.dimension = 2 ^ s.width := by
  have hmade : Obtainable (· = 64) (basis 64 0 : StateVector ℝ) := .basis rfl (if_pos (by decide))
  refine ⟨hmade, size_amplitudes_basis 64 0, rfl, fun h => ?_⟩
  have hright := h _ hmade
  rw [hmade.isCurrent.dimension_eq_iff] at hright
  exact absurd hright (by decide)

end StateVector

end QuantumWorkbench
