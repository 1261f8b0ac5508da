import Mathlib
import QuantumWorkbench.Proofs.Qubo.Assignment
import QuantumWorkbench.Search.Exhaustive

/-!
# Exhaustive search

Where ranks are total and transitive, the search returns an assignment whose value has the least
rank, and of several the one of the least index. What the scan keeps after each index is the best of
the indices so far.
-/

namespace QuantumWorkbench

/-- Scalars whose ranks are a total and transitive order. -/
class Scalar.IsRanked (α : Type) [Scalar α] : Prop where
  total : ∀ x y : α, Scalar.atMost x y = true ∨ Scalar.atMost y x = true
  trans : ∀ x y z : α, Scalar.atMost x y = true → Scalar.atMost y z = true →
    Scalar.atMost x z = true

/-- A solution scores an assignment: a bit for each variable, and the value of exactly these
bits. -/
structure Qubo.Scores {α : Type} [Scalar α] (q : Qubo α) (s : Solution α) : Prop where
  assigns : q.Assigns s.bits
  energy : s.energy = q.evaluate s.bits

namespace Scalar

variable {α : Type} [Scalar α]

theorem before_iff {x y : α} : before x y = true ↔ ¬ atMost y x = true := by
  simp [before]

variable [IsRanked α]

theorem atMost_refl (x : α) : atMost x x = true := (IsRanked.total x x).elim id id

theorem before_of_before_of_atMost {x y z : α} (h : before x y = true) (h' : atMost y z = true) :
    before x z = true :=
  before_iff.2 fun hzx => before_iff.1 h (IsRanked.trans y z x h' hzx)

theorem atMost_of_before {x y : α} (h : before x y = true) : atMost x y = true :=
  (IsRanked.total x y).resolve_right (before_iff.1 h)

end Scalar

namespace Qubo

variable {α : Type} [Scalar α] {q : Qubo α} {width last : ℕ} {best : ℕ × α}

/-- The best of the indices up to the last one scanned: its value ranks at most as high as any, and
strictly below those of the indices before it. -/
structure IsLeastUpTo (q : Qubo α) (width last : ℕ) (best : ℕ × α) : Prop where
  le_last : best.1 ≤ last
  energy : best.2 = q.energyAt width best.1
  atMost : ∀ i ≤ last, Scalar.atMost best.2 (q.energyAt width i) = true
  before : ∀ i < best.1, Scalar.before best.2 (q.energyAt width i) = true

variable [Scalar.IsRanked α]

theorem isLeastUpTo_zero (q : Qubo α) (width : ℕ) :
    q.IsLeastUpTo width 0 (0, q.energyAt width 0) where
  le_last := le_rfl
  energy := rfl
  atMost _ hi := Nat.le_zero.1 hi ▸ Scalar.atMost_refl _
  before _ hi := absurd hi (Nat.not_lt_zero _)

/-- Scanning one more index keeps the best. -/
theorem IsLeastUpTo.better (h : q.IsLeastUpTo width last best) :
    q.IsLeastUpTo width (last + 1) (q.better width best (last + 1)) := by
  simp only [Qubo.better]
  split
  · next hbefore =>
    -- the new index beats all before it, since it beats the best of them
    have hall : ∀ i ≤ last, Scalar.before (q.energyAt width (last + 1)) (q.energyAt width i) = true :=
      fun i hi => Scalar.before_of_before_of_atMost hbefore (h.atMost i hi)
    refine ⟨le_rfl, rfl, fun i hi => ?_, fun i hi => hall i (Nat.lt_succ_iff.1 hi)⟩
    rcases Nat.of_le_succ hi with hi | rfl
    · exact Scalar.atMost_of_before (hall i hi)
    · exact Scalar.atMost_refl _
  · next hbefore =>
    have hnew : Scalar.atMost best.2 (q.energyAt width (last + 1)) = true :=
      not_not.1 fun hle => hbefore (Scalar.before_iff.2 hle)
    refine ⟨Nat.le_succ_of_le h.le_last, h.energy, fun i hi => ?_, h.before⟩
    rcases Nat.of_le_succ hi with hi | rfl
    · exact h.atMost i hi
    · exact hnew

/-- The whole scan keeps the best. -/
theorem isLeastUpTo_fold (q : Qubo α) (width last : ℕ) :
    q.IsLeastUpTo width last (last.fold (fun index _ best => q.better width best (index + 1))
      (0, q.energyAt width 0)) := by
  induction last with
  | zero => exact isLeastUpTo_zero q width
  | succ last ih =>
    rw [Nat.fold_succ]
    exact ih.better

/-- **The search returns the first assignment of least rank.** -/
theorem exists_minimum (q : Qubo α) (hpos : 0 < q.width) (hsmall : q.width ≤ maxExhaustive) :
    ∃ index < 2 ^ q.width, ∃ best, q.minimum = .ok best ∧
      best.bits = Solution.bitsOfIndex index q.width ∧ q.Scores best ∧
      (∀ bits, q.Assigns bits → Scalar.atMost best.energy (q.evaluate bits) = true) ∧
      ∀ i < index, Scalar.before best.energy
        (q.evaluate (Solution.bitsOfIndex i q.width)) = true := by
  have hwidth : ¬ (q.width = 0 ∨ maxExhaustive < q.width) := by omega
  have hleast := isLeastUpTo_fold q q.width (Nat.pow 2 q.width - 1)
  have hcount : 0 < 2 ^ q.width := Nat.two_pow_pos _
  have hlast : Nat.pow 2 q.width - 1 = 2 ^ q.width - 1 := rfl
  refine ⟨_, ?_, _, by rw [minimum, if_neg hwidth], rfl, ⟨assigns_bitsOfIndex q _, ?_⟩, ?_, ?_⟩
  · have hle := hleast.le_last
    omega
  · rw [← energyAt_eq_evaluate]
    exact hleast.energy
  · intro bits hbits
    obtain ⟨i, hi, rfl⟩ := hbits.exists_index
    rw [← energyAt_eq_evaluate]
    exact hleast.atMost i (by omega)
  · intro i hi
    rw [← energyAt_eq_evaluate]
    exact hleast.before i hi

end Qubo

end QuantumWorkbench
