import Mathlib
import QuantumWorkbench.Proofs.Exact
import QuantumWorkbench.Proofs.Register.Bits

/-!
# Operators on a register

A wave assigns an amplitude to every basis index. A matrix on some qubits acts on waves through the
bits of these qubits: products of matrices become compositions, matrices on disjoint qubits commute,
the conjugate transpose is the adjoint, and a unitary matrix keeps the length of the part of a wave
that belongs to a register.
-/

namespace QuantumWorkbench.Register

open scoped Matrix

/-- An amplitude for every basis index. -/
abbrev Wave := ℕ → ℂ

/-- Composition over the complex numbers is named once, and every composition of operators refers to
this. -/
instance compTriple : RingHomCompTriple (RingHom.id ℂ) (RingHom.id ℂ) (RingHom.id ℂ) := .ids

/-- Operators are equal where they give every index the same amplitude. -/
theorem map_ext {A B : Wave →ₗ[ℂ] Wave} (h : ∀ ψ x, A ψ x = B ψ x) : A = B :=
  LinearMap.ext fun ψ => funext (h ψ)

/-- The square matrices on as many qubits as a list has. -/
abbrev LocalMatrix (qs : List ℕ) := Matrix (Fin (2 ^ qs.length)) (Fin (2 ^ qs.length)) ℂ

/-- The bits of an index at some qubits, as a row of a matrix on them. -/
def slot (qs : List ℕ) (x : ℕ) : Fin (2 ^ qs.length) := ⟨bitsAt qs x, bitsAt_lt qs x⟩

/-- A matrix on some qubits as an operator on waves. -/
def applyAt (qs : List ℕ) (M : LocalMatrix qs) : Wave →ₗ[ℂ] Wave where
  toFun ψ x := ∑ c, M (slot qs x) c * ψ (putBits qs c x)
  map_add' φ ψ := by
    funext x
    simp only [Pi.add_apply, mul_add, Finset.sum_add_distrib]
  map_smul' r ψ := by
    funext x
    simp only [Pi.smul_apply, smul_eq_mul, Finset.mul_sum, RingHom.id_apply]
    exact Finset.sum_congr rfl fun c _ => by ring

theorem applyAt_apply (qs : List ℕ) (M : LocalMatrix qs) (ψ : Wave) (x : ℕ) :
    applyAt qs M ψ x = ∑ c, M (slot qs x) c * ψ (putBits qs c x) := rfl

/-! ## Slots -/

@[simp] theorem putBits_slot (qs : List ℕ) (x : ℕ) : putBits qs (slot qs x) x = x :=
  putBits_bitsAt qs x

theorem slot_putBits {qs : List ℕ} (hqs : qs.Nodup) (c : Fin (2 ^ qs.length)) (x : ℕ) :
    slot qs (putBits qs c x) = c := Fin.ext (bitsAt_putBits hqs c.isLt x)

theorem slot_putBits_of_disjoint {qs rs : List ℕ} (h : qs.Disjoint rs) (c x : ℕ) :
    slot qs (putBits rs c x) = slot qs x := Fin.ext (bitsAt_putBits_of_disjoint h c x)

/-! ## Algebra -/

theorem applyAt_one (qs : List ℕ) : applyAt qs 1 = LinearMap.id := by
  apply map_ext
  intro ψ x
  rw [applyAt_apply, Finset.sum_eq_single (slot qs x)]
  · -- the diagonal entry leaves the index alone
    rw [Matrix.one_apply_eq, one_mul, putBits_slot]
    rfl
  · intro c _ hc
    rw [Matrix.one_apply_ne (Ne.symm hc), zero_mul]
  · intro h
    exact absurd (Finset.mem_univ _) h

theorem applyAt_sub (qs : List ℕ) (M N : LocalMatrix qs) :
    applyAt qs (M - N) = applyAt qs M - applyAt qs N := by
  apply map_ext
  intro ψ x
  simp only [applyAt_apply, LinearMap.sub_apply, Pi.sub_apply, Matrix.sub_apply, sub_mul,
    Finset.sum_sub_distrib]

theorem applyAt_smul (qs : List ℕ) (r : ℂ) (M : LocalMatrix qs) :
    applyAt qs (r • M) = r • applyAt qs M := by
  apply map_ext
  intro ψ x
  simp only [applyAt_apply, LinearMap.smul_apply, Pi.smul_apply, Matrix.smul_apply, smul_eq_mul,
    Finset.mul_sum, mul_assoc]

theorem applyAt_mul {qs : List ℕ} (hqs : qs.Nodup) (M N : LocalMatrix qs) :
    applyAt qs (M * N) = applyAt qs M ∘ₗ applyAt qs N := by
  apply map_ext
  intro ψ x
  rw [LinearMap.comp_apply, applyAt_apply, applyAt_apply]
  simp only [applyAt_apply, slot_putBits hqs, putBits_putBits, Matrix.mul_apply, Finset.sum_mul,
    Finset.mul_sum, mul_assoc]
  exact Finset.sum_comm

/-- The operator of a matrix determines the matrix. -/
theorem applyAt_injective {qs : List ℕ} (hqs : qs.Nodup) : Function.Injective (applyAt qs) := by
  intro M N h
  -- a wave that is one at a single index reads off one column
  have hentry : ∀ (A : LocalMatrix qs) (r c : Fin (2 ^ qs.length)),
      applyAt qs A (Pi.single (putBits qs c 0) 1) (putBits qs r 0) = A r c := by
    intro A r c
    rw [applyAt_apply, Finset.sum_eq_single c]
    · simp only [slot_putBits hqs, putBits_putBits, Pi.single_eq_same, mul_one]
    · intro d _ hd
      have hne : putBits qs d 0 ≠ putBits qs c 0 := fun heq => hd <| by
        rw [← slot_putBits hqs d 0, heq, slot_putBits hqs]
      simp only [putBits_putBits, Pi.single_eq_of_ne hne, mul_zero]
    · exact fun hc => absurd (Finset.mem_univ c) hc
  ext r c
  rw [← hentry M, h, hentry]

/-- A matrix that is undone on one side is undone on the other. -/
theorem applyAt_comp_eq_id_comm {qs : List ℕ} (hqs : qs.Nodup) {M N : LocalMatrix qs}
    (h : applyAt qs M ∘ₗ applyAt qs N = LinearMap.id) :
    applyAt qs N ∘ₗ applyAt qs M = LinearMap.id := by
  rw [← applyAt_mul hqs, ← applyAt_one qs] at h ⊢
  rw [mul_eq_one_comm.1 (applyAt_injective hqs h)]

theorem applyAt_comm {qs rs : List ℕ} (h : qs.Disjoint rs) (M : LocalMatrix qs)
    (N : LocalMatrix rs) : applyAt qs M ∘ₗ applyAt rs N = applyAt rs N ∘ₗ applyAt qs M := by
  apply map_ext
  intro ψ x
  simp only [LinearMap.comp_apply, applyAt_apply, slot_putBits_of_disjoint h,
    slot_putBits_of_disjoint h.symm, putBits_comm h, Finset.mul_sum]
  rw [Finset.sum_comm]
  exact Finset.sum_congr rfl fun c _ => Finset.sum_congr rfl fun d _ => by ring

/-! ## Length -/

/-- The part of a wave that belongs to a register of `n` qubits, as a vector with its 2-norm. -/
noncomputable def vector (n : ℕ) : Wave →ₗ[ℂ] EuclideanSpace ℂ (Fin (2 ^ n)) where
  toFun ψ := WithLp.toLp 2 fun x => ψ x
  map_add' _ _ := rfl
  map_smul' _ _ := rfl

@[simp] theorem vector_apply (n : ℕ) (ψ : Wave) (x : Fin (2 ^ n)) : vector n ψ x = ψ x := rfl

/-- The basis index and the slot that a summand of `applyAt` refers to, with their roles
exchanged. -/
def exchangeSlot {n : ℕ} {qs : List ℕ} (hlt : ∀ q ∈ qs, q < n)
    (e : Fin (2 ^ n) × Fin (2 ^ qs.length)) : Fin (2 ^ n) × Fin (2 ^ qs.length) :=
  (⟨putBits qs e.2 e.1, putBits_lt hlt e.1.isLt _⟩, slot qs e.1)

theorem exchangeSlot_involutive {n : ℕ} {qs : List ℕ} (hqs : qs.Nodup) (hlt : ∀ q ∈ qs, q < n) :
    Function.Involutive (exchangeSlot (n := n) hlt) := by
  rintro ⟨x, c⟩
  refine Prod.ext (Fin.ext ?_) ?_
  · show putBits qs (slot qs x) (putBits qs c x) = x
    rw [putBits_putBits, putBits_slot]
  · exact slot_putBits hqs c x

/-- **Adjoint**: the conjugate transpose of a matrix acts as the adjoint of its operator. -/
theorem inner_applyAt {n : ℕ} {qs : List ℕ} (hqs : qs.Nodup) (hlt : ∀ q ∈ qs, q < n)
    (M : LocalMatrix qs) (φ ψ : Wave) :
    inner ℂ (vector n (applyAt qs M φ)) (vector n ψ) =
      inner ℂ (vector n φ) (vector n (applyAt qs Mᴴ ψ)) := by
  -- both sides are sums over a basis index and a slot, and exchanging the two maps one to the other
  let f : Fin (2 ^ n) × Fin (2 ^ qs.length) → ℂ := fun e =>
    ψ e.1 * (starRingEnd ℂ) (M (slot qs e.1) e.2 * φ (putBits qs e.2 e.1))
  have hswap : ∑ e, f (exchangeSlot hlt e) = ∑ e, f e :=
    Equiv.sum_comp (exchangeSlot_involutive hqs hlt).toPerm f
  have hleft : inner ℂ (vector n (applyAt qs M φ)) (vector n ψ) = ∑ e, f e := by
    simp only [PiLp.inner_apply, vector_apply, applyAt_apply, RCLike.inner_apply, map_sum,
      Finset.mul_sum, Fintype.sum_prod_type, f]
  have hright : inner ℂ (vector n φ) (vector n (applyAt qs Mᴴ ψ)) =
      ∑ e, f (exchangeSlot hlt e) := by
    simp only [PiLp.inner_apply, vector_apply, applyAt_apply, RCLike.inner_apply, Finset.sum_mul,
      Fintype.sum_prod_type, f, exchangeSlot, slot_putBits hqs, putBits_putBits, putBits_slot,
      Matrix.conjTranspose_apply, map_mul]
    refine Finset.sum_congr rfl fun x _ => Finset.sum_congr rfl fun c _ => ?_
    rw [← starRingEnd_apply]
    ring
  rw [hleft, hright, hswap]

/-- A matrix whose product with its conjugate transpose is a multiple of the identity scales the
length of every wave alike. -/
theorem norm_sq_applyAt {n : ℕ} {qs : List ℕ} (hqs : qs.Nodup) (hlt : ∀ q ∈ qs, q < n)
    {M : LocalMatrix qs} {r : ℝ} (hM : Mᴴ * M = (r : ℂ) • 1) (ψ : Wave) :
    ‖vector n (applyAt qs M ψ)‖ ^ 2 = r * ‖vector n ψ‖ ^ 2 := by
  -- the squared length is an inner product, in which the matrix meets its conjugate transpose
  have hscale : applyAt qs Mᴴ (applyAt qs M ψ) = (r : ℂ) • ψ := by
    rw [← LinearMap.comp_apply, ← applyAt_mul hqs, hM, applyAt_smul, applyAt_one]
    rfl
  have hinner := congrArg Complex.re (inner_applyAt hqs hlt M ψ (applyAt qs M ψ))
  rw [hscale, map_smul, inner_smul_right, Complex.re_ofReal_mul] at hinner
  rw [← @inner_self_eq_norm_sq ℂ, ← @inner_self_eq_norm_sq ℂ]
  exact hinner

/-- **Unitary matrices keep lengths**. -/
theorem norm_applyAt {n : ℕ} {qs : List ℕ} (hqs : qs.Nodup) (hlt : ∀ q ∈ qs, q < n)
    {M : LocalMatrix qs} (hM : M ∈ Matrix.unitaryGroup (Fin (2 ^ qs.length)) ℂ) (ψ : Wave) :
    ‖vector n (applyAt qs M ψ)‖ = ‖vector n ψ‖ := by
  have hone : Mᴴ * M = ((1 : ℝ) : ℂ) • 1 := by
    rw [Complex.ofReal_one, one_smul]
    exact Matrix.mem_unitaryGroup_iff'.1 hM
  have hsq := norm_sq_applyAt hqs hlt hone ψ
  rw [one_mul] at hsq
  exact (pow_left_inj₀ (norm_nonneg _) (norm_nonneg _) two_ne_zero).1 hsq

end QuantumWorkbench.Register
