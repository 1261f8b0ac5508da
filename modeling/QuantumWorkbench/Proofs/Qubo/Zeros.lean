import Mathlib
import QuantumWorkbench.Proofs.Double.Sign
import QuantumWorkbench.Proofs.Qubo.Value

/-!
# The zeros among the values of an objective

An objective in double precision takes the value negative zero only if all of its entries are
negative, and then no value is positive. So its values never include both zeros, and their order by
rank is their order by value.
-/

namespace QuantumWorkbench.Qubo

open Float.Model.UnpackedFloat Double

/-- A bit is not negative as a double. -/
theorem sign?_num_bit {b : ℕ} (hb : b < 2) : sign? (Scalar.num b) = some .positive := by
  interval_cases b <;> rfl

/-- A term takes the sign of its entry, unless it is undefined. -/
theorem sign?_of_termValue {bit : ℕ → ℕ} (hbit : ∀ k, bit k < 2) (term : (ℕ × ℕ) × Float)
    {s : Sign} (h : sign? (termValue bit term) = some s) : sign? term.2 = some s := by
  unfold termValue at h
  split at h
  · exact sign?_mul_positive (sign?_num_bit (hbit _)) h
  · exact sign?_mul_positive (sign?_num_bit (hbit _))
      (sign?_mul_positive (sign?_num_bit (hbit _)) h)

/-- **An objective that takes negative zero takes no positive value.** -/
theorem sign_evaluate_negative {q : Qubo Float} {bits bits' : List ℕ} (hbits : IsAssignment bits)
    (hbits' : IsAssignment bits') (hlength : bits'.length = bits.length)
    (hdefined : (q.evaluate bits').isNaN = false) (h : IsNegativeZero (q.evaluate bits)) :
    sign (q.evaluate bits') = .negative := by
  rw [evaluate_eq_sum] at h
  have hnegative : sign? (q.evaluate bits') = some .negative := by
    rw [evaluate_eq_sum] at hdefined ⊢
    refine sign?_sum_negative fun value hvalue => ?_
    have hvalue_defined := sign?_eq (isNaN_of_sum hdefined value hvalue)
    obtain ⟨term, hterm, rfl⟩ := List.mem_map.1 hvalue
    rw [hlength] at hterm
    -- the entry has the sign of both of its values
    have hzero := isNegativeZero_of_sum h _ (List.mem_map_of_mem hterm)
    have hentry := sign?_of_termValue hbits.bitAt_lt term hzero.sign?
    have hentry' := sign?_of_termValue hbits'.bitAt_lt term hvalue_defined
    rw [hvalue_defined, ← hentry', hentry]
  exact Option.some.inj ((sign?_eq hdefined).symm.trans hnegative)

end QuantumWorkbench.Qubo
