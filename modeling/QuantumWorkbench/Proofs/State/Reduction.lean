import Mathlib
import QuantumWorkbench.Proofs.Register.Layer
import QuantumWorkbench.Proofs.Register.Product
import QuantumWorkbench.Proofs.State.Drawing
import QuantumWorkbench.Proofs.State.Evolution
import QuantumWorkbench.State.Reduction

/-!
# Reduced states

Tracing qubits out leaves the marginal distribution of the others. A reduced index is spelled by the
bits of the kept qubits, so reading the kept bits is a map from the indices of a register onto those
of a smaller one, and the weight of a reduced index is the weight of all that is sent there. Two
traces in a row read bits twice, and that comes to reading the bits of the qubits that both keep.
-/

namespace QuantumWorkbench

open Register

/-! ## Storage -/

namespace Storage

variable {m n : ℕ}

theorem holdsPairs_mono (hmn : m ≤ n) (h : holdsPairs n = true) : holdsPairs m = true := by
  have hholds : 16 * n < limit := of_decide_eq_true h
  exact decide_eq_true (by omega : 16 * m < limit)

theorem holdsScalars_of_holdsPairs (h : holdsPairs n = true) : holdsScalars n = true := by
  have hholds : 16 * n < limit := of_decide_eq_true h
  exact decide_eq_true (by omega : 8 * n < limit)

/-- A register with a vector that can be stored is narrower than a word. -/
theorem width_lt_of_holdsPairs (h : holdsPairs (2 ^ n) = true) : n < 64 := by
  have hholds : 16 * 2 ^ n < limit := of_decide_eq_true h
  by_contra hwide
  have hle : 2 ^ 64 ≤ 2 ^ n := Nat.pow_le_pow_right two_pos (Nat.le_of_not_lt hwide)
  have hlimit : limit < 2 ^ 64 := by decide
  omega

end Storage

namespace StateVector

/-! ## Kept qubits -/

/-- The qubits of a register that remain when some are traced out, in increasing order. -/
structure Keeps (width : ℕ) (traced kept : List ℕ) : Prop where
  increasing : kept.Pairwise (· < ·)
  mem_iff : ∀ q, q ∈ kept ↔ q < width ∧ q ∉ traced

theorem keeps_keptQubits (width : ℕ) (traced : List ℕ) :
    Keeps width traced (keptQubits width traced) where
  increasing := List.pairwise_lt_range.filter _
  mem_iff q := by simp [keptQubits]

namespace Keeps

variable {n : ℕ} {traced traced' kept kept' : List ℕ}

theorem nodup (h : Keeps n traced kept) : kept.Nodup := h.increasing.imp Nat.ne_of_lt

/-- Only the set of traced qubits counts. -/
theorem congr (h : Keeps n traced kept) (hmem : ∀ q, q ∈ traced ↔ q ∈ traced') :
    Keeps n traced' kept where
  increasing := h.increasing
  mem_iff q := by rw [h.mem_iff, hmem]

/-- There is one list of kept qubits. -/
theorem unique (h : Keeps n traced kept) (h' : Keeps n traced kept') : kept = kept' := by
  have hperm : kept.Perm kept' := by
    apply (List.perm_ext_iff_of_nodup h.nodup h'.nodup).2
    intro q
    rw [h.mem_iff, h'.mem_iff]
  exact hperm.eq_of_pairwise (fun _ _ _ _ hlt hgt => absurd hlt (Nat.lt_asymm hgt))
    h.increasing h'.increasing

theorem length_le (h : Keeps n traced kept) : kept.length ≤ n := by
  have hsub : kept ⊆ List.range n := fun q hq => List.mem_range.2 ((h.mem_iff q).1 hq).1
  simpa using (h.nodup.subperm hsub).length_le

theorem lt_of_mem (h : Keeps n traced kept) {q : ℕ} (hq : q ∈ kept) : q < n :=
  ((h.mem_iff q).1 hq).1

/-- **Tracing in two stages**: the qubits that remain of those that remained, under their old
numbers. -/
theorem map_getD {A B first second : List ℕ} (hfirst : Keeps n A first)
    (hB : ∀ q ∈ B, q < n) (hdisjoint : ∀ q ∈ B, q ∉ A)
    (hsecond : Keeps first.length (B.map first.idxOf) second) :
    Keeps n (A ++ B) (second.map fun j => first.getD j 0) where
  increasing := by
    apply List.pairwise_map.2
    apply hsecond.increasing.imp_of_mem
    intro i j hi hj hij
    have hi := hsecond.lt_of_mem hi
    have hj := hsecond.lt_of_mem hj
    simpa [hi, hj] using List.pairwise_iff_getElem.1 hfirst.increasing i j hi hj hij
  mem_iff q := by
    have hkept : ∀ p ∈ B, p ∈ first := fun p hp => (hfirst.mem_iff p).2 ⟨hB p hp, hdisjoint p hp⟩
    constructor
    · -- a place that is left names a qubit that neither stage traces
      intro hq
      obtain ⟨j, hj, rfl⟩ := List.mem_map.1 hq
      obtain ⟨hlt, hnot⟩ := (hsecond.mem_iff j).1 hj
      have hq := (hfirst.mem_iff first[j]).1 (List.getElem_mem hlt)
      have hplace : first.idxOf first[j] = j := hfirst.nodup.idxOf_getElem j hlt
      rw [List.getD_eq_getElem _ _ hlt]
      refine ⟨hq.1, fun hmem => ?_⟩
      rcases List.mem_append.1 hmem with hA | hB
      · exact hq.2 hA
      · exact hnot (List.mem_map.2 ⟨first[j], hB, hplace⟩)
    · -- a qubit outside both lists is kept first, and then its place is
      rintro ⟨hlt, hnot⟩
      have hq : q ∈ first :=
        (hfirst.mem_iff q).2 ⟨hlt, fun hA => hnot (List.mem_append_left B hA)⟩
      have hplace := List.idxOf_lt_length_of_mem hq
      refine List.mem_map.2 ⟨first.idxOf q, (hsecond.mem_iff _).2 ⟨hplace, fun hmem => ?_⟩, ?_⟩
      · -- the place of a kept qubit tells which one it is
        obtain ⟨p, hp, heq⟩ := List.mem_map.1 hmem
        have hpq : p = q := (List.idxOf_inj (hkept p hp)).1 heq
        exact hnot (List.mem_append_right A (hpq ▸ hp))
      · rw [List.getD_eq_getElem _ _ hplace, List.getElem_idxOf hplace]

end Keeps

/-! ## Reading the kept bits -/

/-- A number is spelled by the bits of an index at some qubits, the first qubit lowest. -/
def Spells (kept : List ℕ) (x r : ℕ) : Prop :=
  r < 2 ^ kept.length ∧ ∀ j (hj : j < kept.length), r.testBit j = x.testBit kept[j]

instance (kept : List ℕ) (x r : ℕ) : Decidable (Spells kept x r) :=
  inferInstanceAs (Decidable (_ ∧ _))

section

variable {kept : List ℕ} (hlt : ∀ q ∈ kept, q < 64) (hlen : kept.length ≤ 64)
include hlt hlen

theorem testBit_readBits (x j : ℕ) :
    (readBits kept x).testBit j = kept[j]?.any fun q => x.testBit q := by
  induction kept using List.reverseRecOn with
  | nil => simp [readBits]
  | append_singleton kept q ih =>
    have hq : q < 64 := hlt q (by simp)
    have hplace : kept.length < 64 := by simpa using hlen
    have hrest := ih (fun p hp => hlt p (by simp [hp])) hplace.le
    have hlast : readBits (kept ++ [q]) x =
        if x.testBit q then readBits kept x ||| 2 ^ kept.length else readBits kept x := by
      simp [readBits, List.zipIdx_append, Qubit.isSet_of_lt x hq, mask_eq hplace]
    rw [hlast, List.getElem?_append]
    by_cases hj : j < kept.length
    · rw [if_pos hj, ← hrest]
      split <;> simp [Nat.testBit_two_pow_of_ne (Nat.ne_of_gt hj)]
    · -- the bits so far end below the place of the last qubit
      have hnone : kept[j]? = none := List.getElem?_eq_none (Nat.le_of_not_lt hj)
      rw [hnone] at hrest
      rw [if_neg hj]
      by_cases hjq : j = kept.length
      · subst hjq
        cases hx : x.testBit q <;> simp [hx, hrest]
      · have hbeyond : [q][j - kept.length]? = none := List.getElem?_eq_none (by simp; omega)
        rw [hbeyond]
        split <;> simp [hrest, Nat.testBit_two_pow_of_ne (Ne.symm hjq)]

theorem readBits_lt (x : ℕ) : readBits kept x < 2 ^ kept.length := by
  apply Nat.lt_pow_two_of_testBit
  intro j hj
  rw [testBit_readBits hlt hlen, List.getElem?_eq_none hj]
  rfl

theorem readBits_eq_iff (x r : ℕ) : readBits kept x = r ↔ Spells kept x r := by
  have hbits : ∀ j (hj : j < kept.length), (readBits kept x).testBit j = x.testBit kept[j] := by
    intro j hj
    rw [testBit_readBits hlt hlen, List.getElem?_eq_getElem hj]
    rfl
  constructor
  · rintro rfl
    exact ⟨readBits_lt hlt hlen x, hbits⟩
  · rintro ⟨hr, hspelled⟩
    apply (eq_iff_testBit (readBits_lt hlt hlen x) hr).2
    intro j hj
    rw [hbits j hj, hspelled j hj]

/-- **Reading twice** reads the bits of the qubits that were picked from those picked first. -/
theorem readBits_readBits {picked : List ℕ} (hpicked : ∀ j ∈ picked, j < kept.length)
    (hfew : picked.length ≤ 64) (x : ℕ) :
    readBits picked (readBits kept x) = readBits (picked.map fun j => kept.getD j 0) x := by
  have hmap : ∀ q ∈ picked.map fun j => kept.getD j 0, q < 64 := by
    intro q hq
    obtain ⟨j, hj, rfl⟩ := List.mem_map.1 hq
    rw [List.getD_eq_getElem _ _ (hpicked j hj)]
    exact hlt _ (List.getElem_mem _)
  apply Nat.eq_of_testBit_eq
  intro i
  rw [testBit_readBits (fun j hj => (hpicked j hj).trans_le hlen) hfew,
    testBit_readBits hmap (by simpa using hfew), List.getElem?_map]
  cases hi : picked[i]? with
  | none => rfl
  | some j =>
    have hj := hpicked j (List.mem_of_getElem? hi)
    simp [testBit_readBits hlt hlen, hj]

end

/-! ## Sums over reduced indices -/

theorem size_foldl_setIfInBounds {β : Type} (f : β → ℕ) (g : Array ℝ → β → ℝ) (es : List β)
    (sums : Array ℝ) :
    (es.foldl (fun sums e => sums.setIfInBounds (f e) (g sums e)) sums).size = sums.size := by
  induction es generalizing sums with
  | nil => rfl
  | cons e es ih => rw [List.foldl_cons, ih, Array.size_setIfInBounds]

/-- Weights that are added up at the places they belong to. -/
theorem getD_foldl_add {β : Type} (place : β → ℕ) (weight : β → ℝ) (es : List β)
    (sums : Array ℝ) {r : ℕ} (hr : r < sums.size) :
    (es.foldl (fun sums e =>
      sums.setIfInBounds (place e) (sums.getD (place e) 0 + weight e)) sums).getD r 0 =
      sums.getD r 0 + (es.map fun e => if place e = r then weight e else 0).sum := by
  induction es generalizing sums with
  | nil => simp
  | cons e es ih =>
    rw [List.foldl_cons, ih _ (by simpa using hr), List.map_cons, List.sum_cons, ← add_assoc]
    congr 1
    -- only what belongs at `r` changes the sum there
    by_cases he : place e = r
    · subst he
      simp [hr]
    · simp [he, hr]

/-- The weight of all indices of a state at which some bits spell a number. -/
noncomputable def mass (s : StateVector ℝ) (kept : List ℕ) (r : ℕ) : ℝ :=
  ∑ x ∈ Finset.range s.dimension with readBits kept x = r, s.probability x

variable {s : StateVector ℝ}

theorem probability_nonneg (s : StateVector ℝ) (x : ℕ) : 0 ≤ s.probability x := by
  rw [probability_eq]
  exact Complex.normSq_nonneg _

theorem mass_nonneg (s : StateVector ℝ) (kept : List ℕ) (r : ℕ) : 0 ≤ s.mass kept r :=
  Finset.sum_nonneg fun x _ => s.probability_nonneg x

theorem getD_getElem?_weights (s : StateVector ℝ) (x : ℕ) :
    s.weights[x]?.getD 0 = s.probability x := by
  rw [weights, probability, amplitude?, List.getElem?_map, Array.getElem?_toList]

theorem size_marginal (kept : List ℕ) (weights : List ℝ) :
    (marginal kept weights).size = Qubit.dimension kept.length := by
  rw [marginal]
  exact (size_foldl_setIfInBounds _ _ _ _).trans Array.size_replicate

/-- **The reduced weights** are the sums over what is sent to each reduced index. -/
theorem getD_marginal {kept : List ℕ} {r : ℕ} (hr : r < Qubit.dimension kept.length) :
    (marginal kept s.weights).getD r 0 = s.mass kept r := by
  have hsum := getD_foldl_add (fun e : ℝ × ℕ => readBits kept e.2) Prod.fst s.weights.zipIdx
    (Array.replicate (Qubit.dimension kept.length) 0) (r := r) (by simpa using hr)
  have hrange := Scalar.sum_zipIdx_take (f := fun p x => if readBits kept x = r then p else 0)
    (d := (0 : ℝ)) (fun x => by simp) s.dimension s.weights
  rw [List.take_of_length_le (by simp [weights, dimension])] at hrange
  rw [marginal, hsum, hrange, mass, Finset.sum_filter]
  simp [hr, getD_getElem?_weights]

theorem sum_weights (s : StateVector ℝ) :
    s.weights.sum = ∑ x ∈ Finset.range s.dimension, s.probability x := by
  have hlist : s.weights = (List.range s.dimension).map s.probability := by
    apply List.ext_getElem? 
    intro x
    by_cases hx : x < s.dimension
    · rw [getElem?_weights s hx]
      simp [hx]
    · have hlen : s.weights.length ≤ x := by simpa [weights, dimension] using hx
      rw [List.getElem?_eq_none hlen]
      simp [hx]
  rw [hlist]
  rfl

/-! ## The reduced state -/

/-- A state as it is held in memory: it has an amplitude for each basis index of its register, and a
table of that many can be stored. -/
structure IsStored (s : StateVector ℝ) : Prop where
  size : s.dimension = 2 ^ s.width
  holds : Storage.holdsPairs (2 ^ s.width) = true

theorem IsStored.width_lt (hs : s.IsStored) : s.width < 64 :=
  Storage.width_lt_of_holdsPairs hs.holds

/-- The width that is counted from a vector is narrower than a word. -/
theorem log2_lt_of_eq_dimension {d : ℕ} (h : d = Qubit.dimension d.log2) : d.log2 < 64 := by
  have hmod : d = 2 ^ (d.log2 % 64) := h.trans (Nat.one_shiftLeft _)
  -- the logarithm of a power of two is its exponent, so no bit of the width is cut off
  have hwidth : d.log2 = d.log2 % 64 := by
    conv_lhs => rw [hmod, Nat.log2_two_pow]
  exact hwidth ▸ Nat.mod_lt _ (by decide)

/-- States are made so, from amplitudes that are in memory. -/
theorem isStored_of_ofAmplitudes {amplitudes : Array (Amplitude ℝ)}
    (hheld : Storage.holdsPairs amplitudes.size = true) (hs : ofAmplitudes amplitudes = .ok s) :
    s.IsStored := by
  obtain ⟨hsize, rfl⟩ := ofAmplitudes_eq_ok_iff.1 hs
  have hdimension : amplitudes.size = 2 ^ amplitudes.size.log2 :=
    hsize.trans (dimension_eq (log2_lt_of_eq_dimension hsize))
  exact ⟨hdimension, hdimension ▸ hheld⟩

/-- The state with the summed weights at its reduced indices. -/
noncomputable def reduced (s : StateVector ℝ) (kept : List ℕ) : StateVector ℝ :=
  measured ((marginal kept s.weights).map fun p => Amplitude.real (Scalar.sqrt p)) kept.length

section

variable {kept : List ℕ} (hfew : kept.length < 64)
include hfew

theorem dimension_reduced : (s.reduced kept).dimension = 2 ^ kept.length := by
  rw [← dimension_eq hfew, ← size_marginal kept s.weights]
  exact Array.size_map

theorem getElem?_marginal {r : ℕ} (hr : r < 2 ^ kept.length) :
    (marginal kept s.weights)[r]? = some (s.mass kept r) := by
  rw [← dimension_eq hfew] at hr
  have hlt : r < (marginal kept s.weights).size := by rwa [size_marginal]
  rw [← getD_marginal hr]
  simp [hlt]

/-- The square of a reduced amplitude is the weight that was summed up. -/
theorem probability_reduced {r : ℕ} (hr : r < 2 ^ kept.length) :
    (s.reduced kept).probability r = s.mass kept r := by
  have hroot : Scalar.sqrt (s.mass kept r) * Scalar.sqrt (s.mass kept r) = s.mass kept r :=
    Real.mul_self_sqrt (s.mass_nonneg kept r)
  have hitem : (s.reduced kept).amplitude? r =
      some (Amplitude.real (Scalar.sqrt (s.mass kept r))) := by
    simp [reduced, measured, amplitude?, getElem?_marginal hfew hr]
  rw [probability, hitem]
  simpa [Amplitude.probability, Amplitude.real] using hroot

theorem reduced_congr {t : StateVector ℝ} {kept' : List ℕ} (hlen : kept'.length = kept.length)
    (hmass : ∀ r < 2 ^ kept.length, s.mass kept r = t.mass kept' r) :
    s.reduced kept = t.reduced kept' := by
  have hmarginal : marginal kept s.weights = marginal kept' t.weights := by
    apply Array.ext (by rw [size_marginal, size_marginal, hlen])
    intro r hr hr'
    have hlt : r < 2 ^ kept.length := by rwa [size_marginal, dimension_eq hfew] at hr
    have hitem := getElem?_marginal (s := s) hfew hlt
    have hitem' := getElem?_marginal (s := t) (hlen ▸ hfew) (hlen ▸ hlt)
    rw [Array.getElem?_eq_getElem hr] at hitem
    rw [Array.getElem?_eq_getElem hr'] at hitem'
    rw [Option.some.inj hitem, Option.some.inj hitem', hmass r hlt]
  rw [reduced, reduced, hmarginal, hlen]

end

section

variable {traced kept : List ℕ} (hs : s.IsStored) (hkeeps : Keeps s.width traced kept)
include hs hkeeps

theorem length_kept_lt : kept.length < 64 := hkeeps.length_le.trans_lt hs.width_lt

theorem kept_lt : ∀ q ∈ kept, q < 64 := fun _ hq => (hkeeps.lt_of_mem hq).trans hs.width_lt

theorem isStored_reduced : (s.reduced kept).IsStored where
  size := dimension_reduced (length_kept_lt hs hkeeps)
  holds :=
    Storage.holdsPairs_mono (Nat.pow_le_pow_right two_pos hkeeps.length_le) hs.holds

/-- **What a trace returns** where all listed qubits are qubits of the state. -/
theorem partialTrace_eq_reduced (hinside : ∀ q ∈ traced, q < s.width) :
    s.partialTrace traced = .ok (s.reduced kept) := by
  have hfew := length_kept_lt hs hkeeps
  have hlist : keptQubits s.width traced = kept := (keeps_keptQubits s.width traced).unique hkeeps
  have hfound : traced.find? (fun q => s.width ≤ q) = none := by
    apply List.find?_eq_none.2
    intro q hq
    simpa using hinside q hq
  have hstorage : Storage.holdsScalars (Qubit.dimension kept.length) = true := by
    rw [dimension_eq hfew]
    exact Storage.holdsScalars_of_holdsPairs (isStored_reduced hs hkeeps).holds
  have hreduces : s.reducesTo kept = true := by simp [reducesTo, hfew]
  rw [partialTrace, hfound]
  simp only [hlist, hstorage, hreduces, Bool.not_true, Bool.false_eq_true, if_false]
  exact ofAmplitudes_of_size hfew (dimension_reduced hfew)

/-- The weight of a reduced index is that of the indices that spell it. -/
theorem mass_eq_sum_spells (r : ℕ) : s.mass kept r =
    ∑ x ∈ Finset.range (2 ^ s.width) with Spells kept x r, s.probability x := by
  rw [mass, hs.size]
  simp only [readBits_eq_iff (kept_lt hs hkeeps) (length_kept_lt hs hkeeps).le]

/-- Every index is sent somewhere, so nothing of the weight is lost. -/
theorem sum_mass : ∑ r ∈ Finset.range (2 ^ kept.length), s.mass kept r =
    ∑ x ∈ Finset.range s.dimension, s.probability x := by
  apply Finset.sum_fiberwise_of_maps_to
  intro x _
  exact Finset.mem_range.2
    (readBits_lt (kept_lt hs hkeeps) (length_kept_lt hs hkeeps).le x)

theorem sum_probability_reduced :
    ∑ r ∈ Finset.range (s.reduced kept).dimension, (s.reduced kept).probability r =
      ∑ x ∈ Finset.range s.dimension, s.probability x := by
  have hfew := length_kept_lt hs hkeeps
  rw [← sum_mass hs hkeeps, dimension_reduced hfew]
  exact Finset.sum_congr rfl fun r hr => probability_reduced hfew (Finset.mem_range.1 hr)

/-- **Weights summed twice** are the weights summed once, over the qubits that both stages keep. -/
theorem mass_reduced {picked : List ℕ} (hpicked : ∀ j ∈ picked, j < kept.length)
    (hless : picked.length ≤ 64) (r : ℕ) :
    (s.reduced kept).mass picked r = s.mass (picked.map fun j => kept.getD j 0) r := by
  have hfew := length_kept_lt hs hkeeps
  have hlt := kept_lt hs hkeeps
  -- the indices that reach `r` in two steps, and the stops on their way
  let fiber := (Finset.range s.dimension).filter fun x => readBits picked (readBits kept x) = r
  let targets := (Finset.range (2 ^ kept.length)).filter fun y => readBits picked y = r
  have hmaps : ∀ x ∈ fiber, readBits kept x ∈ targets := by
    intro x hx
    have hx := (Finset.mem_filter.1 hx).2
    exact Finset.mem_filter.2 ⟨Finset.mem_range.2 (readBits_lt hlt hfew.le x), hx⟩
  calc (s.reduced kept).mass picked r
      = ∑ y ∈ targets, s.mass kept y := by
        rw [mass, dimension_reduced hfew]
        apply Finset.sum_congr rfl
        intro y hy
        exact probability_reduced hfew (Finset.mem_range.1 (Finset.mem_filter.1 hy).1)
    _ = ∑ y ∈ targets, ∑ x ∈ fiber with readBits kept x = y, s.probability x := by
        apply Finset.sum_congr rfl
        intro y hy
        have hy := (Finset.mem_filter.1 hy).2
        rw [mass, Finset.filter_filter]
        apply Finset.sum_congr _ fun _ _ => rfl
        apply Finset.filter_congr
        rintro x -
        exact ⟨fun hx => ⟨hx ▸ hy, hx⟩, And.right⟩
    _ = ∑ x ∈ fiber, s.probability x := Finset.sum_fiberwise_of_maps_to hmaps _
    _ = s.mass (picked.map fun j => kept.getD j 0) r := by
        simp only [fiber, mass, readBits_readBits hlt hfew.le hpicked hless]

end

/-- **Two traces in a row** give the state of one trace of all their qubits. The second trace names
its qubits by their places among those that the first one kept. -/
theorem reduced_reduced (hs : s.IsStored) {A B first second both : List ℕ}
    (hfirst : Keeps s.width A first) (hB : ∀ q ∈ B, q < s.width) (hdisjoint : ∀ q ∈ B, q ∉ A)
    (hsecond : Keeps first.length (B.map first.idxOf) second)
    (hboth : Keeps s.width (A ++ B) both) :
    (s.reduced first).reduced second = s.reduced both := by
  have hmap : (second.map fun j => first.getD j 0) = both :=
    (hfirst.map_getD hB hdisjoint hsecond).unique hboth
  have hlen : both.length = second.length := by rw [← hmap, List.length_map]
  have hfew : second.length < 64 := hlen ▸ length_kept_lt hs hboth
  apply reduced_congr hfew hlen
  intro r _
  rw [← hmap]
  exact mass_reduced hs hfirst (fun j hj => hsecond.lt_of_mem hj) hfew.le r

/-! ## Faults -/

/-- A trace breaks off at the first listed qubit beyond the state. -/
theorem partialTrace_eq_error {traced : List ℕ} {q : ℕ}
    (hq : traced.find? (fun q => s.width ≤ q) = some q) :
    s.partialTrace traced = .error (.qubitOutOfRange q s.width) := by
  rw [partialTrace, hq]

/-- **A trace fails** on lists with a qubit beyond the state, and on no others. -/
theorem partialTrace_eq_error_iff (hs : s.IsStored) (traced : List ℕ) (e : StateError) :
    s.partialTrace traced = .error e ↔
      ∃ q, traced.find? (fun q => s.width ≤ q) = some q ∧ e = .qubitOutOfRange q s.width := by
  constructor
  · intro hfails
    cases hq : traced.find? fun q => s.width ≤ q with
    | some q =>
      rw [partialTrace_eq_error hq] at hfails
      exact ⟨q, rfl, (Except.error.inj hfails).symm⟩
    | none =>
      have hinside : ∀ q ∈ traced, q < s.width := by simpa using hq
      rw [partialTrace_eq_reduced hs (keeps_keptQubits _ _) hinside] at hfails
      cases hfails
  · rintro ⟨q, hq, rfl⟩
    exact partialTrace_eq_error hq

/-! ## Products -/

section

variable {t : StateVector ℝ}

/-- The weights of a product multiply. -/
theorem probability_tensor (ht : t.IsStored) (x : ℕ) : (s.tensor t).probability x =
    s.probability (x / 2 ^ t.width) * t.probability (x % 2 ^ t.width) := by
  simp only [probability_eq, wave_tensor ht.size, productWave, map_mul]
  exact mul_comm _ _

variable (hstored : Storage.holdsPairs (2 ^ (s.width + t.width)) = true)
include hstored

theorem width_tensor : (s.tensor t).width = s.width + t.width := by
  have hholds : 16 * 2 ^ (s.width + t.width) < Storage.limit := of_decide_eq_true hstored
  have hlt : s.width + t.width < 2 ^ (s.width + t.width) := Nat.lt_two_pow_self
  have hlimit : Storage.limit < Index.limit := by decide
  exact Index.wrap_of_lt (by omega)

theorem isStored_tensor (hs : s.IsStored) (ht : t.IsStored) : (s.tensor t).IsStored where
  size := by
    rw [width_tensor hstored, pow_add]
    exact (size_tensor t s).trans (congrArg₂ (· * ·) hs.size ht.size)
  holds := by rwa [width_tensor hstored]

variable {traced : List ℕ} (hlow : ∀ q, q ∈ traced ↔ q < t.width)
include hlow

/-- Without the low qubits those of the first state remain. -/
theorem keeps_high : Keeps (s.tensor t).width traced ((List.range s.width).map (· + t.width)) where
  increasing := List.pairwise_map.2 (List.pairwise_lt_range.imp fun h => Nat.add_lt_add_right h _)
  mem_iff q := by
    rw [width_tensor hstored, hlow, List.mem_map]
    constructor
    · rintro ⟨p, hp, rfl⟩
      have hp := List.mem_range.1 hp
      omega
    · intro hq
      exact ⟨q - t.width, List.mem_range.2 (by omega), by omega⟩

variable (hs : s.IsStored) (ht : t.IsStored)
include hs ht

theorem readBits_high {x : ℕ} (hx : x < 2 ^ (s.width + t.width)) :
    readBits ((List.range s.width).map (· + t.width)) x = x / 2 ^ t.width := by
  have hproduct := isStored_tensor hstored hs ht
  have hkeeps := keeps_high hstored hlow
  apply (readBits_eq_iff (kept_lt hproduct hkeeps) (length_kept_lt hproduct hkeeps).le x _).2
  constructor
  · rw [List.length_map, List.length_range]
    exact Nat.div_lt_of_lt_mul (by rwa [← pow_add, Nat.add_comm])
  · intro j hj
    simp [Nat.testBit_div_two_pow]

theorem mass_tensor {r : ℕ} (hr : r < 2 ^ s.width) :
    (s.tensor t).mass ((List.range s.width).map (· + t.width)) r =
      s.probability r * ∑ c ∈ Finset.range t.dimension, t.probability c := by
  have hpos := Nat.two_pow_pos t.width
  rw [mass, (isStored_tensor hstored hs ht).size, width_tensor hstored, Finset.mul_sum, ht.size]
  -- the index with low part `c` that is sent to `r`
  apply Finset.sum_nbij' (· % 2 ^ t.width) (fun c => 2 ^ t.width * r + c)
  · intro x _
    exact Finset.mem_range.2 (Nat.mod_lt x hpos)
  · intro c hc
    have hc := Finset.mem_range.1 hc
    have hlt : 2 ^ t.width * r + c < 2 ^ (s.width + t.width) := by
      have hle := Nat.mul_le_mul_left (2 ^ t.width) (Nat.succ_le_of_lt hr)
      rw [Nat.add_comm s.width, pow_add]
      rw [Nat.mul_succ] at hle
      omega
    refine Finset.mem_filter.2 ⟨Finset.mem_range.2 hlt, ?_⟩
    rw [readBits_high hstored hlow hs ht hlt, Nat.mul_add_div hpos, Nat.div_eq_of_lt hc,
      Nat.add_zero]
  · intro x hx
    obtain ⟨hx, hsent⟩ := Finset.mem_filter.1 hx
    rw [readBits_high hstored hlow hs ht (Finset.mem_range.1 hx)] at hsent
    rw [← hsent]
    exact Nat.div_add_mod x _
  · intro c hc
    exact (Nat.mul_add_mod ..).trans (Nat.mod_eq_of_lt (Finset.mem_range.1 hc))
  · intro x hx
    obtain ⟨hx, hsent⟩ := Finset.mem_filter.1 hx
    rw [readBits_high hstored hlow hs ht (Finset.mem_range.1 hx)] at hsent
    rw [probability_tensor ht, hsent]

end

/-! ## The whole trace -/

theorem probability_of_dimension_le {x : ℕ} (hx : s.dimension ≤ x) : s.probability x = 0 := by
  rw [probability, amplitude?, Array.getElem?_eq_none hx]
  rfl

theorem sq_norm (s : StateVector ℝ) :
    s.norm ^ 2 = ∑ x ∈ Finset.range s.dimension, s.probability x := by
  have hnonneg : 0 ≤ s.weights.sum := by
    rw [sum_weights]
    exact Finset.sum_nonneg fun x _ => s.probability_nonneg x
  rw [← sum_weights, norm, Scalar.sum_real]
  exact Real.sq_sqrt hnonneg

/-- A state on some qubits of another, with their outcomes as likely as they are there. -/
structure IsMarginal (s t : StateVector ℝ) (kept : List ℕ) : Prop where
  stored : t.IsStored
  width : t.width = kept.length
  probability : ∀ r, t.probability r =
    ∑ x ∈ Finset.range (2 ^ s.width) with Spells kept x r, s.probability x
  total : ∑ r ∈ Finset.range t.dimension, t.probability r =
    ∑ x ∈ Finset.range s.dimension, s.probability x

theorem isMarginal_reduced (hs : s.IsStored) {traced kept : List ℕ}
    (hkeeps : Keeps s.width traced kept) : s.IsMarginal (s.reduced kept) kept where
  stored := isStored_reduced hs hkeeps
  width := rfl
  probability r := by
    have hfew := length_kept_lt hs hkeeps
    by_cases hr : r < 2 ^ kept.length
    · rw [probability_reduced hfew hr, mass_eq_sum_spells hs hkeeps]
    · -- no index spells a number with more bits than there are kept qubits
      have hnone : ∀ x ∈ Finset.range (2 ^ s.width), ¬ Spells kept x r := fun x _ h => hr h.1
      have hle : (s.reduced kept).dimension ≤ r := by
        rw [dimension_reduced hfew]
        exact Nat.le_of_not_lt hr
      rw [probability_of_dimension_le hle, Finset.filter_eq_empty_iff.2 hnone, Finset.sum_empty]
  total := sum_probability_reduced hs hkeeps

/-- Order and repeats in the list of traced qubits do not matter. -/
theorem partialTrace_congr (hs : s.IsStored) {traced traced' : List ℕ}
    (hinside : ∀ q ∈ traced, q < s.width) (hmem : ∀ q, q ∈ traced ↔ q ∈ traced') :
    s.partialTrace traced = s.partialTrace traced' := by
  have hkeeps := keeps_keptQubits s.width traced
  have hinside' : ∀ q ∈ traced', q < s.width := fun q hq => hinside q ((hmem q).2 hq)
  rw [partialTrace_eq_reduced hs hkeeps hinside,
    partialTrace_eq_reduced hs (hkeeps.congr hmem) hinside']

/-- Tracing more qubits, under the places they have among those that were kept. -/
theorem partialTrace_partialTrace (hs : s.IsStored) {A B kept : List ℕ}
    (hA : ∀ q ∈ A, q < s.width) (hB : ∀ q ∈ B, q < s.width) (hdisjoint : B.Disjoint A)
    (hkeeps : Keeps s.width A kept) :
    ∃ t, s.partialTrace A = .ok t ∧
      t.partialTrace (B.map kept.idxOf) = s.partialTrace (A ++ B) := by
  have hboth := keeps_keptQubits s.width (A ++ B)
  have hsecond := keeps_keptQubits kept.length (B.map kept.idxOf)
  have hnot : ∀ q ∈ B, q ∉ A := fun q hq h => hdisjoint hq h
  have hinside : ∀ q ∈ A ++ B, q < s.width := fun q hq =>
    (List.mem_append.1 hq).elim (hA q) (hB q)
  have hplaces : ∀ j ∈ B.map kept.idxOf, j < kept.length := by
    intro j hj
    obtain ⟨q, hq, rfl⟩ := List.mem_map.1 hj
    exact List.idxOf_lt_length_of_mem ((hkeeps.mem_iff q).2 ⟨hB q hq, hnot q hq⟩)
  refine ⟨_, partialTrace_eq_reduced hs hkeeps hA, ?_⟩
  rw [partialTrace_eq_reduced hs hboth hinside, ← reduced_reduced hs hkeeps hB hnot hsecond hboth]
  exact partialTrace_eq_reduced (isStored_reduced hs hkeeps) hsecond hplaces

/-- Tracing the low qubits of a product leaves the weights of the first state. -/
theorem partialTrace_tensor (hs : s.IsStored) {t : StateVector ℝ} {traced : List ℕ}
    (ht : t.IsStored) (hstored : Storage.holdsPairs (2 ^ (s.width + t.width)) = true)
    (hlow : ∀ q, q ∈ traced ↔ q < t.width) :
    ∃ u, (s.tensor t).partialTrace traced = .ok u ∧ u.width = s.width ∧
      ∀ r, u.probability r = s.probability r * t.norm ^ 2 := by
  have hproduct := isStored_tensor hstored hs ht
  have hkeeps := keeps_high hstored hlow
  have hfew := length_kept_lt hproduct hkeeps
  have hlen : ((List.range s.width).map (· + t.width)).length = s.width := by simp
  have hinside : ∀ q ∈ traced, q < (s.tensor t).width := by
    intro q hq
    rw [width_tensor hstored]
    exact ((hlow q).1 hq).trans_le (Nat.le_add_left _ _)
  refine ⟨_, partialTrace_eq_reduced hproduct hkeeps hinside, hlen, fun r => ?_⟩
  by_cases hr : r < 2 ^ s.width
  · rw [probability_reduced hfew (by rwa [hlen]), mass_tensor hstored hlow hs ht hr, sq_norm]
  · -- beyond the register of the first state both sides are zero
    have hbeyond := Nat.le_of_not_lt hr
    rw [probability_of_dimension_le (s := s) (by rwa [hs.size]), zero_mul]
    apply probability_of_dimension_le
    rwa [dimension_reduced hfew, hlen]

/-- **A trace gives the marginal distribution.** Where all listed qubits are qubits of the state, it
returns a state on the others, in which a reduced index has the weight of all indices whose kept
qubits, in increasing order, spell it, and the total weight is that of the state. Order and repeats
in the list do not matter. Tracing more qubits afterwards, under the places they have among those
that were kept, gives the state of one trace. Of a product without its low qubits the weights of the
first state are left, scaled by the squared length of the second. A trace fails where some listed
qubit is beyond the state, and nowhere else. -/
theorem partialTrace_marginal (hs : s.IsStored) :
    (∀ {traced kept : List ℕ}, (∀ q ∈ traced, q < s.width) → Keeps s.width traced kept →
      ∃ t, s.partialTrace traced = .ok t ∧ s.IsMarginal t kept) ∧
    (∀ {traced traced' : List ℕ}, (∀ q ∈ traced, q < s.width) →
      (∀ q, q ∈ traced ↔ q ∈ traced') → s.partialTrace traced = s.partialTrace traced') ∧
    (∀ {A B kept : List ℕ}, (∀ q ∈ A, q < s.width) → (∀ q ∈ B, q < s.width) → B.Disjoint A →
      Keeps s.width A kept →
      ∃ t, s.partialTrace A = .ok t ∧
        t.partialTrace (B.map kept.idxOf) = s.partialTrace (A ++ B)) ∧
    (∀ {t : StateVector ℝ} {traced : List ℕ}, t.IsStored →
      Storage.holdsPairs (2 ^ (s.width + t.width)) = true → (∀ q, q ∈ traced ↔ q < t.width) →
      ∃ u, (s.tensor t).partialTrace traced = .ok u ∧ u.width = s.width ∧
        ∀ r, u.probability r = s.probability r * t.norm ^ 2) ∧
    ∀ traced, (∃ e, s.partialTrace traced = .error e) ↔ ∃ q ∈ traced, s.width ≤ q := by
  refine ⟨?marginal, partialTrace_congr hs, partialTrace_partialTrace hs, partialTrace_tensor hs,
    ?failure⟩
  case marginal =>
    intro traced kept hinside hkeeps
    exact ⟨_, partialTrace_eq_reduced hs hkeeps hinside, isMarginal_reduced hs hkeeps⟩
  case failure =>
    intro traced
    constructor
    · rintro ⟨e, he⟩
      obtain ⟨q, hq, -⟩ := (partialTrace_eq_error_iff hs traced e).1 he
      exact ⟨q, List.mem_of_find?_eq_some hq, by simpa using List.find?_some hq⟩
    · rintro ⟨q, hq, hbeyond⟩
      have hsome : (traced.find? fun q => s.width ≤ q).isSome = true :=
        List.find?_isSome.2 ⟨q, hq, decide_eq_true hbeyond⟩
      obtain ⟨p, hp⟩ := Option.isSome_iff_exists.1 hsome
      exact ⟨_, partialTrace_eq_error hp⟩

/-- Three qubits that agree, with weights 1 and 4. -/
noncomputable def agreeing : StateVector ℝ :=
  measured #[1, 0, 0, 0, 0, 0, 0, .real 2] 3

/-- Two of them keep both weights, and two traces are one. -/
theorem partialTrace_marginal_agreeing : agreeing.IsStored ∧
    (∃ t, agreeing.partialTrace [2, 2] = .ok t ∧ t.width = 2 ∧ t.probability 0 = 1 ∧
      t.probability 3 = 4) ∧
    agreeing.partialTrace [2, 0, 2] = agreeing.partialTrace [0, 2] ∧
    (∃ t, agreeing.partialTrace [0] = .ok t ∧ t.partialTrace [1] = agreeing.partialTrace [0, 2]) ∧
    (∃ u, (agreeing.tensor agreeing).partialTrace [1, 0, 2] = .ok u ∧ u.width = 3 ∧
      ∀ r, u.probability r = agreeing.probability r * agreeing.norm ^ 2) ∧
    ∃ e, agreeing.partialTrace [0, 3] = .error e := by
  have hs : agreeing.IsStored := ⟨rfl, by decide⟩
  obtain ⟨hmarginal, hset, hstages, hproduct, hfails⟩ := partialTrace_marginal hs
  have hkeeps : Keeps 3 [2, 2] [0, 1] := keeps_keptQubits 3 [2, 2]
  have hzero : (Finset.range (2 ^ 3)).filter (Spells [0, 1] · 0) = {0, 4} := by decide
  have hthree : (Finset.range (2 ^ 3)).filter (Spells [0, 1] · 3) = {3, 7} := by decide
  have hlow : agreeing.probability 0 = 1 * 1 + 0 * 0 := rfl
  have hhigh : agreeing.probability 7 = 2 * 2 + 0 * 0 := rfl
  have hmixed : ∀ x ∈ [3, 4], agreeing.probability x = 0 * 0 + 0 * 0 :=
    List.forall_mem_cons.2 ⟨rfl, List.forall_mem_singleton.2 rfl⟩
  obtain ⟨t, ht, hmarginal⟩ := hmarginal (by decide) hkeeps
  refine ⟨hs, ⟨t, ht, hmarginal.width, ?_, ?_⟩, hset (by decide) (by simp [or_comm]), ?_, ?_, ?_⟩
  · apply (hmarginal.probability 0).trans
    change ∑ x ∈ (Finset.range (2 ^ 3)).filter (Spells [0, 1] · 0), agreeing.probability x = 1
    rw [hzero, Finset.sum_pair (by decide), hlow, hmixed 4 (by decide)]
    norm_num
  · apply (hmarginal.probability 3).trans
    change ∑ x ∈ (Finset.range (2 ^ 3)).filter (Spells [0, 1] · 3), agreeing.probability x = 4
    rw [hthree, Finset.sum_pair (by decide), hhigh, hmixed 3 (by decide)]
    norm_num
  · exact hstages (by decide) (B := [2]) (by decide) (by simp) (keeps_keptQubits 3 [0])
  · refine hproduct hs (by decide) fun q => ?_
    change q ∈ [1, 0, 2] ↔ q < 3
    simp only [List.mem_cons, List.not_mem_nil, or_false]
    omega
  · exact (hfails _).2 ⟨3, by decide, by decide⟩

end StateVector

end QuantumWorkbench
