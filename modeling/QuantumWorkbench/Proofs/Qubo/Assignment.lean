import Mathlib
import QuantumWorkbench.Proofs.Qubo.Value

/-!
# Assignments of least value

The assignments of an objective have one bit for each of its variables. They are the bits of the
indices below a power of two, so there are finitely many and one of them has the least value. How
many variables an objective has is what its declared width says, as long as every term that it was
built from stays below that width.
-/

namespace QuantumWorkbench.Qubo

/-! ## Assignments and indices -/

/-- Every assignment is the bits of one index. -/
theorem exists_bitsOfIndex {bits : List ℕ} (hbits : IsAssignment bits) :
    ∃ x < 2 ^ bits.length, Solution.bitsOfIndex x bits.length = bits := by
  induction bits with
  | nil => exact ⟨0, by simp, rfl⟩
  | cons b bits ih =>
    obtain ⟨hb, hrest⟩ := List.forall_mem_cons.1 hbits
    obtain ⟨x, hx, hindex⟩ := ih hrest
    -- the first bit is the lowest
    have hmod : (2 * x + b) % 2 = b := by omega
    have hdiv : (2 * x + b) / 2 = x := by omega
    refine ⟨2 * x + b, ?_, ?_⟩
    · rw [List.length_cons, pow_succ]
      omega
    · rw [List.length_cons, Solution.bitsOfIndex, hmod, hdiv, hindex]

section

variable {α : Type}

/-- An assignment of an objective has a bit for each variable. -/
structure Assigns (q : Qubo α) (bits : List ℕ) : Prop where
  length : bits.length = q.width
  binary : IsAssignment bits

theorem assigns_bitsOfIndex (q : Qubo α) (x : ℕ) :
    q.Assigns (Solution.bitsOfIndex x q.width) :=
  ⟨Solution.length_bitsOfIndex x q.width, isAssignment_bitsOfIndex x q.width⟩

/-- The assignments of an objective are the bits of the indices below a power of two. -/
theorem Assigns.exists_index {q : Qubo α} {bits : List ℕ} (h : q.Assigns bits) :
    ∃ x < 2 ^ q.width, Solution.bitsOfIndex x q.width = bits :=
  h.length ▸ exists_bitsOfIndex h.binary

end

/-! ## Minimisers -/

/-- An assignment of least value. -/
structure IsMinimiser (q : Qubo ℝ) (bits : List ℕ) : Prop where
  assigns : q.Assigns bits
  le : ∀ bits', q.Assigns bits' → q.evaluate bits ≤ q.evaluate bits'

/-- **Every objective has an assignment of least value.** -/
theorem exists_isMinimiser (q : Qubo ℝ) : ∃ bits, q.IsMinimiser bits := by
  obtain ⟨x, -, hx⟩ := Finset.exists_min_image (Finset.range (2 ^ q.width))
    (fun x => q.evaluate (Solution.bitsOfIndex x q.width))
    ⟨0, Finset.mem_range.2 (Nat.two_pow_pos _)⟩
  refine ⟨_, assigns_bitsOfIndex q x, fun bits hbits => ?_⟩
  obtain ⟨y, hy, rfl⟩ := hbits.exists_index
  exact hx y (Finset.mem_range.2 hy)

/-- What no assignment falls below is the value of the minimisers, once it is attained. -/
theorem IsMinimiser.evaluate_eq {q : Qubo ℝ} {bits bits' : List ℕ} {bound : ℝ}
    (h : q.IsMinimiser bits) (hbound : ∀ bits, q.Assigns bits → bound ≤ q.evaluate bits)
    (hbits' : q.Assigns bits') (hattained : q.evaluate bits' = bound) :
    q.evaluate bits = bound :=
  le_antisymm (hattained ▸ h.le bits' hbits') (hbound bits h.assigns)

/-! ## Declared widths -/

section

variable {α : Type} [Scalar α]

/-- Every variable of an objective is declared. -/
def IsDeclared (q : Qubo α) : Prop := ∀ e ∈ q.terms.entries, e.1.1 < q.declared ∧ e.1.2 < q.declared

omit [Scalar α] in
theorem isDeclared_blank (declared : ℕ) : (blank declared : Qubo α).IsDeclared :=
  fun _ he => absurd he List.not_mem_nil

theorem IsDeclared.addTerms {q : Qubo α} (hq : q.IsDeclared) {terms : List (ℕ × ℕ × α)}
    (hterms : ∀ t ∈ terms, t.1 < q.declared ∧ t.2.1 < q.declared) :
    (q.addTerms terms).IsDeclared := by
  rw [addTerms_eq_foldl]
  induction terms generalizing q with
  | nil => exact hq
  | cons t terms ih =>
    obtain ⟨ht, hrest⟩ := List.forall_mem_cons.1 hterms
    refine ih (q := q.add t.1 t.2.1 t.2.2) (fun e he => ?_) hrest
    rcases Entries.key_of_mem_update he with hkey | ⟨e', he', hkey⟩
    · -- the pair of the term in the order of its variables
      rw [hkey, Qubo.ordered]
      split
      · exact ht
      · exact ht.symm
    · exact hkey ▸ hq e' he'

theorem isDeclared_ofTerms {declared : ℕ} {terms : List (ℕ × ℕ × α)}
    (hterms : ∀ t ∈ terms, t.1 < declared ∧ t.2.1 < declared) :
    (ofTerms declared terms).IsDeclared := (isDeclared_blank declared).addTerms hterms

omit [Scalar α] in
/-- **An objective has as many variables as declared** when it has no others. -/
theorem IsDeclared.width_eq {q : Qubo α} (hq : q.IsDeclared) : q.width = q.declared := by
  have hentries : ∀ e ∈ q.terms.entries, Index.nextClamped e.1.2 ≤ q.declared := fun e he =>
    (min_le_left _ _).trans (hq e he).2
  exact le_antisymm (width_le_iff.2 ⟨le_rfl, hentries⟩) (declared_le_width q)

end

end QuantumWorkbench.Qubo
