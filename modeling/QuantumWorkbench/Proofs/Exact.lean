import Mathlib
import QuantumWorkbench.Gate.Matrix

/-!
# Exact arithmetic

The real numbers as scalars. Over them amplitudes are complex numbers, and every statement about
what a circuit computes is a statement about the same definitions that run in double precision.
-/

namespace QuantumWorkbench

/-! ## Real scalars -/

/-- The numeral two is named once, and every term with it refers to this. -/
instance atLeastTwo_two : Nat.AtLeastTwo 2 := ⟨le_rfl⟩

/-- Arithmetic without rounding. -/
noncomputable instance : Scalar ℝ where
  toZero := Real.instZero
  toOne := Real.instOne
  toAdd := Real.instAdd
  toSub := Real.instSub
  toMul := Real.instMul
  toDiv := DivInvMonoid.toDiv
  toNeg := Real.instNeg
  toLT := Real.instLT
  toLE := Real.instLE
  toBEq := instBEqOfDecidableEq
  decidableLT := fun _ _ => Classical.propDecidable _
  decidableLE := fun _ _ => Classical.propDecidable _
  num n := n
  toNat x := ⌊x⌋₊
  isFinite _ := true
  atMost x y := @decide (x ≤ y) (Classical.propDecidable _)
  abs x := |x|
  sqrt := Real.sqrt
  hypot x y := Real.sqrt (x ^ 2 + y ^ 2)
  exp := Real.exp
  log2 := Real.logb (2 : ℕ)
  pi := Real.pi
  sin := Real.sin
  cos := Real.cos
  arcsin := Real.arcsin
  angle y x := Complex.arg ⟨x, y⟩

namespace Scalar

@[simp] theorem num_real (n : ℕ) : (num n : ℝ) = n := rfl

@[simp] theorem abs_real (x : ℝ) : Scalar.abs x = |x| := rfl

@[simp] theorem pi_real : (Scalar.pi : ℝ) = Real.pi := rfl

@[simp] theorem sin_real (x : ℝ) : Scalar.sin x = Real.sin x := rfl

@[simp] theorem cos_real (x : ℝ) : Scalar.cos x = Real.cos x := rfl

@[simp] theorem half_real (x : ℝ) : half x = x / 2 := by
  simp only [half, two, num_real, Nat.cast_ofNat]

@[simp] theorem two_real : (two : ℝ) = 2 := by
  simp only [two, num_real, Nat.cast_ofNat]

theorem tolerance_real : (tolerance : ℝ) = 1e-10 := by
  simp only [tolerance, num_real]
  norm_num

theorem tolerance_pos : (0 : ℝ) < tolerance := by
  rw [tolerance_real]
  norm_num

theorem invSqrtTwo_real : (invSqrtTwo : ℝ) = Real.sqrt 2 / 2 := rfl

theorem invSqrtTwo_mul_self : (invSqrtTwo : ℝ) * invSqrtTwo = 1 / 2 := by
  have h : Real.sqrt 2 * Real.sqrt 2 = 2 := Real.mul_self_sqrt (by norm_num)
  rw [invSqrtTwo_real, div_mul_div_comm, h]
  norm_num

/-- Without rounding the order of a sum does not matter, nor that it starts from negative zero. -/
theorem sum_real (xs : List ℝ) : sum xs = xs.sum := by
  have hfold : ∀ (ys : List ℝ) (y : ℝ), ys.foldl (· + ·) y = y + ys.sum := by
    intro ys
    induction ys with
    | nil => simp
    | cons z zs ih => simp [ih, add_assoc]
  have hstart : (-0 : ℝ) = 0 := neg_zero
  calc sum xs = (-0 : ℝ) + xs.sum := hfold xs (-0)
    _ = xs.sum := by rw [hstart, zero_add]

/-- The items of a list with their positions, from the positions. -/
theorem zipIdx_take_eq_map {β : Type} (d : β) (n : ℕ) (xs : List β) : (xs.take n).zipIdx =
    (List.range (min n xs.length)).map fun i => (xs.getD i d, i) := by
  apply List.ext_getElem (by simp)
  intro i h₁ h₂
  have hi : i < xs.length := by
    rw [List.length_zipIdx, List.length_take] at h₁
    omega
  simp [hi]

/-- A sum over the items of a list with their positions, as a sum over positions. Past the end
stands an item that counts nothing, so the sum may go as far as one likes. -/
theorem sum_zipIdx_take {β : Type} {f : β → ℕ → ℝ} {d : β} (hd : ∀ i, f d i = 0) (n : ℕ)
    (xs : List β) : ((xs.take n).zipIdx.map fun e => f e.1 e.2).sum =
      ∑ i ∈ Finset.range n, f (xs.getD i d) i := by
  have hsum : ((xs.take n).zipIdx.map fun e => f e.1 e.2).sum =
      ∑ i ∈ Finset.range (min n xs.length), f (xs.getD i d) i := by
    rw [zipIdx_take_eq_map d, List.map_map]
    rfl
  rw [hsum]
  apply Finset.sum_subset (Finset.range_subset_range.2 (min_le_left n xs.length))
  intro i hi hbeyond
  have hlen : xs.length ≤ i := by
    rw [Finset.mem_range] at hi hbeyond
    omega
  rw [List.getD_eq_default xs d hlen, hd]

end Scalar

/-! ## Amplitudes as complex numbers -/

namespace Amplitude

/-- The complex number of an amplitude. -/
def toComplex (a : Amplitude ℝ) : ℂ := ⟨a.re, a.im⟩

@[simp] theorem re_toComplex (a : Amplitude ℝ) : a.toComplex.re = a.re := rfl

@[simp] theorem im_toComplex (a : Amplitude ℝ) : a.toComplex.im = a.im := rfl

@[simp] theorem toComplex_zero : toComplex 0 = 0 := rfl

@[simp] theorem toComplex_one : toComplex 1 = 1 := rfl

@[simp] theorem toComplex_add (a b : Amplitude ℝ) :
    (a + b).toComplex = a.toComplex + b.toComplex := rfl

@[simp] theorem toComplex_neg (a : Amplitude ℝ) : (-a).toComplex = -a.toComplex := rfl

@[simp] theorem toComplex_mul (a b : Amplitude ℝ) :
    (a * b).toComplex = a.toComplex * b.toComplex := rfl

@[simp] theorem toComplex_conj (a : Amplitude ℝ) :
    a.conj.toComplex = (starRingEnd ℂ) a.toComplex := rfl

@[simp] theorem toComplex_i : toComplex Amplitude.i = Complex.I := rfl

@[simp] theorem toComplex_real (x : ℝ) : (Amplitude.real x).toComplex = x := rfl

@[simp] theorem toComplex_unit (angle : ℝ) :
    (Amplitude.unit angle).toComplex = Complex.exp (angle * Complex.I) := by
  refine Complex.ext ?_ ?_
  · rw [Complex.exp_ofReal_mul_I_re]
    rfl
  · rw [Complex.exp_ofReal_mul_I_im]
    rfl

theorem toComplex_injective : Function.Injective toComplex := by
  intro a b h
  obtain ⟨hre, him⟩ := Complex.ext_iff.1 h
  cases a
  cases b
  simp_all [toComplex]

theorem toComplex_foldl (zs : List (Amplitude ℝ)) (z : Amplitude ℝ) :
    (zs.foldl (· + ·) z).toComplex = z.toComplex + (zs.map toComplex).sum := by
  induction zs generalizing z with
  | nil => simp
  | cons w zs ih => simp [ih, add_assoc]

@[simp] theorem toComplex_sum (zs : List (Amplitude ℝ)) :
    (sum zs).toComplex = (zs.map toComplex).sum := by
  rw [sum, toComplex_foldl, toComplex_zero, zero_add]

/-- Without rounding every amplitude agrees with itself. -/
instance : ReflBEq (Amplitude ℝ) where
  rfl {a} := by
    show (a.re == a.re && a.im == a.im) = true
    rw [beq_self_eq_true a.re, beq_self_eq_true a.im]
    rfl

end Amplitude

/-! ## Matrices -/

namespace SquareMatrix

/-- The entries of a stored matrix as complex numbers, up to a side. -/
noncomputable def toMatrix (m : SquareMatrix ℝ) (d : ℕ) : Matrix (Fin d) (Fin d) ℂ :=
  fun i j => (m.entry i j).toComplex

theorem entry_ofFn {d : ℕ} (f : ℕ → ℕ → Amplitude ℝ) {i j : ℕ} (hi : i < d) (hj : j < d) :
    (ofFn d f).entry i j = f i j := by
  have hlt : i * d + j < d * d := by
    have := Nat.mul_le_mul_right d (Nat.succ_le_of_lt hi)
    rw [Nat.succ_mul] at this
    omega
  have hdiv : (i * d + j) / d = i := by
    rw [Nat.mul_comm, Nat.mul_add_div (by omega), Nat.div_eq_of_lt hj, Nat.add_zero]
  have hmod : (i * d + j) % d = j := by
    rw [Nat.mul_comm, Nat.mul_add_mod, Nat.mod_eq_of_lt hj]
  simp [entry, ofFn, Array.getD, hlt, hdiv, hmod]

@[simp] theorem toMatrix_identity (d : ℕ) : (identity d : SquareMatrix ℝ).toMatrix d = 1 := by
  ext i j
  rw [toMatrix, identity, entry_ofFn _ i.isLt j.isLt, Matrix.one_apply]
  simp only [Fin.ext_iff]
  split <;> rfl

theorem toMatrix_ofRows_two (a b c d : Amplitude ℝ) :
    (ofRows [[a, b], [c, d]]).toMatrix 2 =
      !![a.toComplex, b.toComplex; c.toComplex, d.toComplex] := by
  ext i j
  fin_cases i <;> fin_cases j <;> rfl

instance : ReflBEq (SquareMatrix ℝ) where
  rfl {m} := by
    show (m.dim == m.dim && m.entries == m.entries) = true
    rw [beq_self_eq_true m.dim, beq_self_eq_true m.entries]
    rfl

end SquareMatrix

end QuantumWorkbench
