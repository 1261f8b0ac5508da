import Mathlib
import QuantumWorkbench.Proofs.Double.Monotone
import QuantumWorkbench.Proofs.Exact
import QuantumWorkbench.State.Sampling

/-!
# Drawing a basis index

The running sums of the weights of a state divide the line into stretches, one for each basis index.
A point is located at the index on whose stretch it lies, and beyond the last stretch at the last
index. An index without weight has an empty stretch.
-/

namespace QuantumWorkbench

/-! ## Sums that ascend -/

/-- Scalars that are compared by a linear order, and on which adding a weight never makes a sum
less. They are all the sums that can come up, and what is compared with them: the draws that are
scaled by a sum. -/
structure AscendingOn {α : Type} [Scalar α] (D : α → Prop) : Prop where
  zero : D 0
  of_add : ∀ {x w : α}, D (x + w) → D x ∧ D w
  refl : ∀ {x : α}, D x → x ≤ x
  trans : ∀ {x y z : α}, x ≤ y → y ≤ z → x ≤ z
  not_le : ∀ {x y : α}, D x → D y → (¬ x ≤ y ↔ y < x)
  le_add : ∀ {x w : α}, D (x + w) → 0 ≤ x → 0 ≤ w → x ≤ x + w
  add_le : ∀ {x w : α}, D (x + w) → 0 ≤ w → ¬ 0 < w → x + w ≤ x
  weight : ∀ {a : Amplitude α}, D a.probability → 0 ≤ a.probability
  of_lt : ∀ {x y : α}, x < y → D x ∧ D y
  of_mul : ∀ {x y : α}, D (x * y) → D x ∧ D y
  zero_le_mul : ∀ {x y : α}, D (x * y) → 0 ≤ x → 0 ≤ y → 0 ≤ x * y

/-- Without rounding all sums of weights ascend. -/
theorem ascendingOn_real : AscendingOn fun _ : ℝ => True where
  zero := trivial
  of_add _ := ⟨trivial, trivial⟩
  refl _ := le_rfl
  trans h h' := h.trans h'
  not_le _ _ := not_le
  le_add _ _ hw := le_add_of_nonneg_right hw
  add_le _ _ hw := add_le_of_nonpos_right (not_lt.1 hw)
  weight _ := add_nonneg (mul_self_nonneg _) (mul_self_nonneg _)
  of_lt _ := ⟨trivial, trivial⟩
  of_mul _ := ⟨trivial, trivial⟩
  zero_le_mul _ := mul_nonneg

/-- In double precision they do where they are defined. -/
theorem ascendingOn_double : AscendingOn fun x : Float => x.isNaN = false where
  zero := rfl
  of_add := Double.isNaN_of_add
  refl hx := (Double.le_iff_place_le hx hx).2 le_rfl
  trans := Double.trans_of_le
  not_le hx hy := by
    rw [Double.le_iff_place_le hx hy, Double.lt_iff_place_lt hy hx]
    exact not_le
  le_add := Double.le_add_of_nonneg
  add_le := Double.add_le_of_not_pos
  weight hdef := by
    obtain ⟨hre, him⟩ := Double.isNaN_of_add hdef
    have hre' := Double.zero_le_mul_self hre
    exact Double.trans_of_le hre' (Double.le_add_of_nonneg hdef hre' (Double.zero_le_mul_self him))
  of_lt := Double.isNaN_eq_false_of_lt
  of_mul := Double.isNaN_of_mul
  zero_le_mul := Double.zero_le_mul

namespace StateVector

variable {α : Type} [Scalar α]

/-! ## Marks -/

/-- The sum of all weights of a state, which every draw is scaled by. -/
def total (s : StateVector α) : α := s.cumulative.back?.getD 0

/-- The marks on the line: zero, and then the running sums. -/
def mark (s : StateVector α) : ℕ → α
  | 0 => 0
  | i + 1 => s.cumulative.getD i 0

/-- The index that a draw is located at. -/
def pick (s : StateVector α) (r : α) : ℕ := locate s.cumulative (r * s.total)

theorem size_cumulative (s : StateVector α) : s.cumulative.size = s.dimension := by
  rw [← Array.length_toList, toList_cumulative, List.length_tail, List.length_scanl]
  simp [weights, dimension]

theorem getElem?_scanl_weights (s : StateVector α) {i : ℕ} (hi : i ≤ s.dimension) :
    (s.weights.scanl (· + ·) 0)[i]? = some (s.mark i) := by
  cases i with
  | zero => simp [mark]
  | succ i =>
    have hsum : i < s.cumulative.size := by rwa [size_cumulative]
    have htail : (s.weights.scanl (· + ·) 0)[i + 1]? = s.cumulative.toList[i]? := by
      rw [toList_cumulative, List.getElem?_tail]
    rw [htail]
    simp [mark, hsum]

theorem getElem?_weights (s : StateVector α) {i : ℕ} (hi : i < s.dimension) :
    s.weights[i]? = some (s.probability i) := by
  have hlt : i < s.amplitudes.size := hi
  simp [weights, probability, amplitude?, hlt]

/-- Each mark is one weight above the mark before it. -/
theorem mark_succ (s : StateVector α) {i : ℕ} (hi : i < s.dimension) :
    s.mark (i + 1) = s.mark i + s.probability i := by
  have hnext := s.getElem?_scanl_weights (i := i + 1) hi
  rw [List.getElem?_succ_scanl, s.getElem?_scanl_weights hi.le, s.getElem?_weights hi] at hnext
  exact (Option.some.inj hnext).symm

/-- The last mark is the total. -/
theorem total_eq (s : StateVector α) : s.total = s.mark s.dimension := by
  rw [total, Array.back?_eq_getElem?, s.size_cumulative]
  cases hdim : s.dimension with
  | zero =>
    have hsize : s.cumulative.size = 0 := s.size_cumulative.trans hdim
    simp [mark, hsize]
  | succ n => simp [mark]

/-- Without rounding the total is the sum of the weights. -/
theorem total_real (s : StateVector ℝ) : s.total = s.weights.sum := by
  have hrun {i : ℕ} (hi : i ≤ s.dimension) : s.mark i = (s.weights.take i).sum := by
    induction i with
    | zero => rfl
    | succ i ih =>
      rw [s.mark_succ hi, ih (Nat.le_of_succ_le hi), List.take_add_one,
        s.getElem?_weights hi, List.sum_append]
      simp
  rw [total_eq, hrun le_rfl, List.take_of_length_le]
  simp [weights, dimension]

/-! ## The order of the marks -/

section

variable {D : α → Prop} (hD : AscendingOn D) {s : StateVector α} (htotal : D s.total)
include hD htotal

/-- Where the total is defined all marks are. -/
theorem defined_mark {i : ℕ} (hi : i ≤ s.dimension) : D (s.mark i) := by
  rw [total_eq] at htotal
  induction hi using Nat.decreasingInduction with
  | self => exact htotal
  | of_succ k hk ih =>
    rw [s.mark_succ hk] at ih
    exact (hD.of_add ih).1

/-- Where the total is defined no weight is negative. -/
theorem zero_le_probability {i : ℕ} (hi : i < s.dimension) : 0 ≤ s.probability i := by
  have hsum := defined_mark hD htotal (i := i + 1) hi
  rw [s.mark_succ hi] at hsum
  have hlt : i < s.amplitudes.size := hi
  have hweight : s.probability i = s.amplitudes[i].probability := by
    simp [probability, amplitude?, hlt]
  rw [hweight] at hsum ⊢
  exact hD.weight (hD.of_add hsum).2

theorem zero_le_mark {i : ℕ} (hi : i ≤ s.dimension) : 0 ≤ s.mark i := by
  induction i with
  | zero => exact hD.refl hD.zero
  | succ i ih =>
    have hsum := defined_mark hD htotal hi
    rw [s.mark_succ hi] at hsum ⊢
    exact hD.trans (ih (Nat.le_of_succ_le hi))
      (hD.le_add hsum (ih (Nat.le_of_succ_le hi)) (zero_le_probability hD htotal hi))

theorem zero_le_total : 0 ≤ s.total := by
  have hmark := zero_le_mark hD htotal le_rfl
  rwa [← total_eq] at hmark

/-- **The marks ascend.** -/
theorem mark_le_mark {i j : ℕ} (hij : i ≤ j) (hj : j ≤ s.dimension) : s.mark i ≤ s.mark j := by
  induction hij with
  | refl => exact hD.refl (defined_mark hD htotal hj)
  | @step j _ ih =>
    have hsum := defined_mark hD htotal hj
    rw [s.mark_succ hj] at hsum ⊢
    exact hD.trans (ih (Nat.le_of_succ_le hj))
      (hD.le_add hsum (zero_le_mark hD htotal (Nat.le_of_succ_le hj))
        (zero_le_probability hD htotal hj))

theorem mark_le_total {i : ℕ} (hi : i ≤ s.dimension) : s.mark i ≤ s.total := by
  rw [total_eq]
  exact mark_le_mark hD htotal hi le_rfl

/-- **An index without weight has an empty stretch.** -/
theorem probability_pos {i : ℕ} (hi : i < s.dimension) {point : α} (hpoint : D point)
    (hle : s.mark i ≤ point) (hlt : point < s.mark (i + 1)) : 0 < s.probability i := by
  by_contra hzero
  have hsum := defined_mark hD htotal (i := i + 1) hi
  apply (hD.not_le hsum hpoint).2 hlt
  rw [s.mark_succ hi] at hsum ⊢
  exact hD.trans (hD.add_le hsum (zero_le_probability hD htotal hi) hzero) hle

/-! ## Locating points -/

/-- The search stops at the first running sum above the point. -/
theorem boundary_eq {point : α} (hpoint : D point) {i : ℕ} (hi : i ≤ s.dimension)
    (hle : s.mark i ≤ point) (hlt : i < s.dimension → point < s.mark (i + 1)) :
    Bisection.boundary (fun k => s.cumulative.getD k 0 ≤ point) 0 s.cumulative.size = i := by
  apply Bisection.boundary_eq (Nat.zero_le i) (s.size_cumulative.symm ▸ hi)
  intro k _ hk
  rw [s.size_cumulative] at hk
  rw [decide_eq_true_eq]
  change s.mark (k + 1) ≤ point ↔ k < i
  constructor
  · intro habove
    -- the sums ascend, so none behind the stretch is up to the point
    by_contra hki
    have hik : i + 1 ≤ k + 1 := Nat.succ_le_succ (not_lt.1 hki)
    have hi' : i < s.dimension := (not_lt.1 hki).trans_lt hk
    apply (hD.not_le (defined_mark hD htotal hi') hpoint).2 (hlt hi')
    exact hD.trans (mark_le_mark hD htotal hik hk) habove
  · intro hki
    exact hD.trans (mark_le_mark hD htotal hki hi) hle

/-- A point on the stretch of an index is located there. -/
theorem locate_of_between {point : α} (hpoint : D point) {i : ℕ} (hi : i < s.dimension)
    (hle : s.mark i ≤ point) (hlt : point < s.mark (i + 1)) : locate s.cumulative point = i := by
  rw [locate, boundary_eq hD htotal hpoint hi.le hle fun _ => hlt, s.size_cumulative]
  exact min_eq_left (Nat.le_sub_one_of_lt hi)

/-- A point beyond all stretches is located at the last index. -/
theorem locate_of_total_le {point : α} (hpoint : D point) (hle : s.total ≤ point) :
    locate s.cumulative point = s.dimension - 1 := by
  rw [total_eq] at hle
  have hboundary := boundary_eq hD htotal hpoint le_rfl hle fun h => absurd h (lt_irrefl _)
  rw [locate, hboundary, s.size_cumulative]
  exact min_eq_right (Nat.sub_le _ _)

omit hD htotal in
/-- From zero on a point is on some stretch, unless it is beyond all of them. -/
theorem exists_between {point : α} (hzero : 0 ≤ point) {n : ℕ}
    (hbeyond : ¬ s.mark n ≤ point) : ∃ i < n, s.mark i ≤ point ∧ ¬ s.mark (i + 1) ≤ point := by
  induction n with
  | zero => exact absurd hzero hbeyond
  | succ n ih =>
    by_cases hle : s.mark n ≤ point
    · exact ⟨n, Nat.lt_succ_self n, hle, hbeyond⟩
    · obtain ⟨i, hi, hbetween⟩ := ih hle
      exact ⟨i, hi.trans (Nat.lt_succ_self n), hbetween⟩

/-- **Where a point is located**: at the index on whose stretch it lies, and at the last one if it
is beyond all stretches. -/
theorem locate_eq_iff (hdim : 0 < s.dimension) {point : α} (hpoint : D point) (hzero : 0 ≤ point)
    (i : ℕ) :
    locate s.cumulative point = i ↔ i < s.dimension ∧ s.mark i ≤ point ∧
      (point < s.mark (i + 1) ∨ i + 1 = s.dimension ∧ s.total ≤ point) := by
  constructor
  · rintro rfl
    -- a point that is not beyond the total has a stretch, and there is only one index for it
    by_cases hbeyond : s.total ≤ point
    · rw [locate_of_total_le hD htotal hpoint hbeyond]
      have hmark := mark_le_total hD htotal (Nat.sub_le s.dimension 1)
      exact ⟨Nat.sub_lt hdim Nat.one_pos, hD.trans hmark hbeyond,
        .inr ⟨Nat.sub_add_cancel hdim, hbeyond⟩⟩
    · rw [total_eq] at hbeyond
      obtain ⟨j, hj, hle, hlt⟩ := exists_between hzero hbeyond
      have hlt := (hD.not_le (defined_mark hD htotal hj) hpoint).1 hlt
      rw [locate_of_between hD htotal hpoint hj hle hlt]
      exact ⟨hj, hle, .inl hlt⟩
  · rintro ⟨hi, hle, hlt | ⟨hlast, hbeyond⟩⟩
    · exact locate_of_between hD htotal hpoint hi hle hlt
    · rw [locate_of_total_le hD htotal hpoint hbeyond, ← hlast]
      rfl

end

end StateVector

end QuantumWorkbench
