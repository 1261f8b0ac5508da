import Mathlib
import QuantumWorkbench.Gate.Expansion
import QuantumWorkbench.Proofs.Gate.Operator
import QuantumWorkbench.Proofs.Register.Renaming

/-!
# Gates written out in smaller ones

Negations, exchanges and controlled gates move basis indices, and phases multiply amplitudes. A
negation between two Hadamard gates is a phase and the other way round; so a controlled phase and a
doubly controlled negation are what their expansions do, without a phase left over.
-/

namespace QuantumWorkbench.Gate

open Register

/-! ## Flips and phases -/

/-- The index with the bit of a qubit flipped where a condition on the index holds. -/
def flipIf (on : ℕ → Bool) (q x : ℕ) : ℕ := setBit q (x.testBit q ^^ on x) x

theorem testBit_flipIf (on : ℕ → Bool) (q x p : ℕ) :
    (flipIf on q x).testBit p = if p = q then x.testBit q ^^ on x else x.testBit p := by
  rw [flipIf, testBit_setBit]

/-- Multiplies the amplitude of every index by a phase. -/
noncomputable def phases (F : ℕ → ℂ) : Wave →ₗ[ℂ] Wave := LinearMap.mulLeft ℂ F

@[simp] theorem phases_apply (F : ℕ → ℂ) (ψ : Wave) (x : ℕ) : phases F ψ x = F x * ψ x := rfl

/-! ## The catalog -/

/-- A gate takes each amplitude from the block of its index. -/
theorem operator_apply (g : Gate ℝ) (ψ : Wave) (x : ℕ) :
    g.operator ψ x = ∑ c ∈ Finset.range (2 ^ g.qubits.length),
      (g.matrix.entry (bitsAt g.qubits x) c).toComplex * ψ (putBits g.qubits c x) := by
  rw [operator, applyAt_apply]
  exact Fin.sum_univ_eq_sum_range
    (fun c => (g.matrix.entry (bitsAt g.qubits x) c).toComplex * ψ (putBits g.qubits c x)) _

/-- A gate whose matrix exchanges two rows moves indices. -/
theorem operator_of_exchange {g : Gate ℝ} {a b : ℕ}
    (hm : g.matrix = .exchange (2 ^ g.qubits.length) a b) (ha : a < 2 ^ g.qubits.length)
    (hb : b < 2 ^ g.qubits.length) (ψ : Wave) (x : ℕ) :
    g.operator ψ x = ψ (putBits g.qubits (if bitsAt g.qubits x = a then b
      else if bitsAt g.qubits x = b then a else bitsAt g.qubits x) x) := by
  have hrow := bitsAt_lt g.qubits x
  have hlt : (if bitsAt g.qubits x = a then b else if bitsAt g.qubits x = b then a
      else bitsAt g.qubits x) < 2 ^ g.qubits.length := by
    split
    · exact hb
    · split
      · exact ha
      · exact hrow
  rw [operator_apply, hm, Finset.sum_eq_single _]
  · -- the one entry of the row that is not zero
    rw [SquareMatrix.exchange, SquareMatrix.entry_ofFn _ hrow hlt, if_pos rfl]
    exact one_mul _
  · intro c hc hne
    rw [SquareMatrix.exchange, SquareMatrix.entry_ofFn _ hrow (Finset.mem_range.1 hc),
      if_neg (Ne.symm hne)]
    exact zero_mul _
  · exact fun h => absurd (Finset.mem_range.2 hlt) h

theorem operator_cnot {a b : ℕ} (hab : a ≠ b) :
    (plain .cnot [a, b]).operator = LinearMap.funLeft ℂ ℂ (flipIf (·.testBit a) b) := by
  apply map_ext
  intro ψ x
  rw [operator_of_exchange rfl (show 2 < 4 by decide) (show 3 < 4 by decide),
    LinearMap.funLeft_apply]
  -- both indices have the same bits, whatever the values of the two qubits
  refine congrArg ψ (Nat.eq_of_testBit_eq fun p => ?_)
  rw [testBit_putBits, testBit_flipIf]
  cases ha : x.testBit a <;> cases hb : x.testBit b <;>
    simp [plain, bitsAt, bitFor, ha, hb] <;> grind

theorem operator_swap {a b : ℕ} (hab : a ≠ b) :
    (plain .swap [a, b]).operator = LinearMap.funLeft ℂ ℂ (exchangeBits a b) := by
  apply map_ext
  intro ψ x
  rw [operator_of_exchange rfl (show 1 < 4 by decide) (show 2 < 4 by decide),
    LinearMap.funLeft_apply]
  refine congrArg ψ (Nat.eq_of_testBit_eq fun p => ?_)
  rw [testBit_putBits, exchangeBits, testBit_setBit, testBit_setBit]
  cases ha : x.testBit a <;> cases hb : x.testBit b <;>
    simp [plain, bitsAt, bitFor, ha, hb] <;> grind

theorem operator_toffoli {a b c : ℕ} (h : [a, b, c].Nodup) :
    (plain .toffoli [a, b, c]).operator =
      LinearMap.funLeft ℂ ℂ (flipIf (fun x => x.testBit a && x.testBit b) c) := by
  apply map_ext
  intro ψ x
  rw [operator_of_exchange rfl (show 6 < 8 by decide) (show 7 < 8 by decide),
    LinearMap.funLeft_apply]
  refine congrArg ψ (Nat.eq_of_testBit_eq fun p => ?_)
  rw [testBit_putBits, testBit_flipIf]
  cases ha : x.testBit a <;> cases hb : x.testBit b <;> cases hc : x.testBit c <;>
    simp [plain, bitsAt, bitFor, ha, hb, hc] <;> grind

theorem operator_plain_one (k : GateKind) (q : ℕ) (ψ : Wave) (x : ℕ) :
    (plain k [q]).operator ψ x =
      ((k.unitary .empty 1).entry (x.testBit q).toNat 0).toComplex * ψ (setBit q false x) +
      ((k.unitary .empty 1).entry (x.testBit q).toNat 1).toComplex * ψ (setBit q true x) := by
  have hrow : bitsAt [q] x = (x.testBit q).toNat := by simp [bitsAt]
  rw [operator_apply]
  show ∑ c ∈ Finset.range 2, ((k.unitary .empty 1).entry (bitsAt [q] x) c).toComplex *
    ψ (putBits [q] c x) = _
  rw [hrow, Finset.sum_range_succ, Finset.sum_range_one]
  rfl

theorem operator_x (q : ℕ) :
    (plain .x [q]).operator = LinearMap.funLeft ℂ ℂ (flipIf (fun _ => true) q) := by
  apply map_ext
  intro ψ x
  rw [operator_plain_one, LinearMap.funLeft_apply, flipIf]
  cases x.testBit q with
  | false =>
    show 0 * ψ _ + 1 * ψ (setBit q true x) = ψ (setBit q true x)
    rw [zero_mul, zero_add, one_mul]
  | true =>
    show 1 * ψ (setBit q false x) + 0 * ψ _ = ψ (setBit q false x)
    rw [zero_mul, add_zero, one_mul]

/-- The factor that a bit brings in where only the value one has a phase. -/
def bitPhase (w : ℂ) (b : Bool) : ℂ := if b then w else 1

@[simp] theorem bitPhase_false (w : ℂ) : bitPhase w false = 1 := rfl

@[simp] theorem bitPhase_true (w : ℂ) : bitPhase w true = w := rfl

/-- A diagonal kind of one qubit gives the indices with the bit at one a phase. -/
theorem operator_of_diagonal {k : GateKind} {w : Amplitude ℝ}
    (hk : k.unitary .empty 1 = .ofRows [[1, 0], [0, w]]) (q : ℕ) :
    (plain k [q]).operator = phases fun x => bitPhase w.toComplex (x.testBit q) := by
  apply map_ext
  intro ψ x
  rw [operator_plain_one, phases_apply, hk]
  cases hbit : x.testBit q with
  | false =>
    have hsame : setBit q false x = x := if_pos hbit
    rw [hsame]
    show 1 * ψ x + 0 * ψ _ = 1 * ψ x
    rw [zero_mul, add_zero]
  | true =>
    have hsame : setBit q true x = x := if_pos hbit
    rw [hsame]
    show 0 * ψ _ + w.toComplex * ψ x = w.toComplex * ψ x
    rw [zero_mul, zero_add]

theorem operator_z (q : ℕ) :
    (plain .z [q]).operator = phases fun x => bitPhase (-1) (x.testBit q) :=
  operator_of_diagonal (w := -1) rfl q

/-- The phase of the gate `t`. -/
noncomputable def eighthPhase : ℂ := (Amplitude.unit (Scalar.pi / Scalar.num 4 : ℝ)).toComplex

theorem eighthPhase_eq : eighthPhase = Complex.exp (Real.pi / 4 * Complex.I) := by
  rw [eighthPhase, Amplitude.toComplex_unit, Scalar.pi_real, Scalar.num_real]
  push_cast
  rfl

theorem eighthPhase_pow_four : eighthPhase ^ 4 = -1 := by
  rw [eighthPhase_eq, ← Complex.exp_nat_mul, ← Complex.exp_pi_mul_I]
  congr 1
  push_cast
  ring

theorem operator_t (q : ℕ) :
    (plain .t [q]).operator = phases fun x => bitPhase eighthPhase (x.testBit q) :=
  operator_of_diagonal rfl q

theorem operator_tdg (q : ℕ) :
    (plain .tdg [q]).operator = phases fun x => bitPhase eighthPhase⁻¹ (x.testBit q) := by
  have hinverse : (Amplitude.unit (-(Scalar.pi / Scalar.num 4) : ℝ)).toComplex = eighthPhase⁻¹ := by
    rw [eighthPhase, Amplitude.toComplex_unit, Amplitude.toComplex_unit, ← Complex.exp_neg,
      Complex.ofReal_neg, neg_mul]
  rw [← hinverse]
  exact operator_of_diagonal rfl q

theorem operator_h (q : ℕ) (ψ : Wave) (x : ℕ) :
    (plain .h [q]).operator ψ x = (Scalar.invSqrtTwo : ℝ) *
      (ψ (setBit q false x) + bitPhase (-1) (x.testBit q) * ψ (setBit q true x)) := by
  rw [operator_plain_one]
  cases x.testBit q with
  | false =>
    show ((Scalar.invSqrtTwo : ℝ) : ℂ) * _ + ((Scalar.invSqrtTwo : ℝ) : ℂ) * _ = _
    rw [bitPhase_false, one_mul, mul_add]
  | true =>
    show ((Scalar.invSqrtTwo : ℝ) : ℂ) * _ + (-(Amplitude.real Scalar.invSqrtTwo)).toComplex * _ = _
    rw [Amplitude.toComplex_neg, Amplitude.toComplex_real, bitPhase_true]
    ring

theorem operator_h_eq (q : ℕ) : (plain .h [q]).operator = applyAt [q] hadamard := by
  rw [← GateKind.toMatrix_h .empty 1]
  rfl

theorem operator_x_eq (q : ℕ) : (plain .x [q]).operator = applyAt [q] Axis.x.pauli := by
  rw [← GateKind.toMatrix_x .empty 1]
  rfl

theorem operator_cz (a b : ℕ) :
    (plain .cz [a, b]).operator =
      phases fun x => bitPhase (-1) (x.testBit a && x.testBit b) := by
  apply map_ext
  intro ψ x
  have hlt : bitsAt [a, b] x < 4 := bitsAt_lt [a, b] x
  -- the entries, from the matrix of the kind
  have hentry : ∀ c, c < 4 →
      ((plain .cz [a, b]).matrix.entry (bitsAt (plain .cz [a, b] : Gate ℝ).qubits x) c).toComplex =
        if bitsAt [a, b] x = c then bitPhase (-1) (x.testBit a && x.testBit b) else 0 := by
    intro c hc
    have hmatrix := congrFun (congrFun (GateKind.toMatrix_cz .empty 2) ⟨_, hlt⟩) ⟨c, hc⟩
    have hdiagonal : (![1, 1, 1, -1] : Fin 4 → ℂ) ⟨_, hlt⟩ =
        bitPhase (-1) (x.testBit a && x.testBit b) := by
      cases ha : x.testBit a <;> cases hb : x.testBit b <;> simp [bitsAt, ha, hb]
    rw [Matrix.diagonal_apply, hdiagonal] at hmatrix
    simp only [Fin.mk.injEq] at hmatrix
    exact hmatrix
  rw [operator_apply, phases_apply, Finset.sum_eq_single (bitsAt [a, b] x)]
  · rw [hentry _ hlt, if_pos rfl]
    exact congrArg (fun y => _ * ψ y) (putBits_bitsAt [a, b] x)
  · intro c hc hne
    rw [hentry c (Finset.mem_range.1 hc), if_neg (Ne.symm hne), zero_mul]
  · exact fun h => absurd (Finset.mem_range.2 (bitsAt_lt _ x)) h

/-! ## Hadamard gates -/

/-- **Between two Hadamard gates a controlled phase is a controlled negation**. -/
theorem operator_h_phases_h (on : ℕ → Bool) (q : ℕ) (hon : ∀ b x, on (setBit q b x) = on x) :
    (plain .h [q]).operator ∘ₗ phases (fun x => bitPhase (-1) (on x && x.testBit q)) ∘ₗ
      (plain .h [q]).operator = LinearMap.funLeft ℂ ℂ (flipIf on q) := by
  have hhalf := Scalar.invSqrtTwo_mul_self_complex
  have hset : ∀ b b' x, setBit q b (setBit q b' x) = setBit q b x := fun b b' x => by
    apply Nat.eq_of_testBit_eq
    intro p
    simp only [testBit_setBit]
    split <;> rfl
  apply map_ext
  intro ψ x
  simp only [LinearMap.comp_apply, operator_h, phases_apply, hon, hset, testBit_setBit, if_true,
    LinearMap.funLeft_apply, flipIf]
  -- two of the four summands cancel
  cases on x with
  | false =>
    cases x.testBit q with
    | false =>
      simp only [bitPhase_false, bitPhase_true, Bool.false_and, Bool.xor_false]
      linear_combination (2 * ψ (setBit q false x)) * hhalf
    | true =>
      simp only [bitPhase_false, bitPhase_true, Bool.false_and, Bool.xor_false]
      linear_combination (2 * ψ (setBit q true x)) * hhalf
  | true =>
    cases x.testBit q with
    | false =>
      simp only [bitPhase_false, bitPhase_true, Bool.true_and, Bool.false_xor]
      linear_combination (2 * ψ (setBit q true x)) * hhalf
    | true =>
      simp only [bitPhase_false, bitPhase_true, Bool.true_and, Bool.xor_self]
      linear_combination (2 * ψ (setBit q false x)) * hhalf

theorem operator_h_h (q : ℕ) : (plain .h [q]).operator ∘ₗ (plain .h [q]).operator =
    LinearMap.id := by
  have hphases : phases (fun x => bitPhase (-1) (false && x.testBit q)) = LinearMap.id :=
    map_ext fun _ _ => one_mul _
  have hflip : flipIf (fun _ => false) q = id := funext fun x => if_pos (Bool.xor_false _).symm
  have h := operator_h_phases_h (fun _ => false) q fun _ _ => rfl
  rw [hphases, hflip] at h
  exact h

/-- A phase that does not depend on a qubit may be moved past a Hadamard gate on it. -/
theorem phases_comp_operator_h {F : ℕ → ℂ} {q : ℕ} (hF : ∀ b x, F (setBit q b x) = F x) :
    phases F ∘ₗ (plain .h [q]).operator = (plain .h [q]).operator ∘ₗ phases F := by
  apply map_ext
  intro ψ x
  simp only [LinearMap.comp_apply, operator_h, phases_apply, hF]
  ring

/-! ## Expansions -/

theorem operator_h_cz_h {a b : ℕ} (hab : a ≠ b) :
    (plain .h [b]).operator ∘ₗ (plain .cz [a, b]).operator ∘ₗ (plain .h [b]).operator =
      (plain .cnot [a, b]).operator := by
  rw [operator_cz, operator_cnot hab]
  exact operator_h_phases_h (·.testBit a) b fun v x => by rw [testBit_setBit, if_neg hab]

theorem operatorAll_expansion_cz {a b : ℕ} (hab : a ≠ b) :
    operatorAll [plain .h [b], plain .cnot [a, b], plain .h [b]] = (plain .cz [a, b]).operator := by
  have hcancel := operator_h_h b
  calc operatorAll [plain .h [b], plain .cnot [a, b], plain .h [b]]
      = (plain .h [b]).operator ∘ₗ (plain .cnot [a, b]).operator ∘ₗ (plain .h [b]).operator := by
        rw [operatorAll_cons, operatorAll_cons, operatorAll_cons, operatorAll_nil,
          LinearMap.id_comp, LinearMap.comp_assoc]
    _ = ((plain .h [b]).operator ∘ₗ (plain .h [b]).operator) ∘ₗ (plain .cz [a, b]).operator ∘ₗ
        ((plain .h [b]).operator ∘ₗ (plain .h [b]).operator) := by
        rw [← operator_h_cz_h hab, LinearMap.comp_assoc, LinearMap.comp_assoc, LinearMap.comp_assoc]
    _ = (plain .cz [a, b]).operator := by
        rw [hcancel, LinearMap.id_comp, LinearMap.comp_id]

/-- The phase of the part of the network between the Hadamard gates. -/
noncomputable def innerPhase (a b c x : ℕ) : ℂ :=
  bitPhase eighthPhase (x.testBit c) * (bitPhase eighthPhase (x.testBit b) *
    (bitPhase eighthPhase⁻¹ (x.testBit c ^^ x.testBit a) *
      (bitPhase eighthPhase (x.testBit c ^^ x.testBit a ^^ x.testBit b) *
        bitPhase eighthPhase⁻¹ (x.testBit c ^^ x.testBit b))))

/-- The phase of the part after them. -/
noncomputable def outerPhase (a b x : ℕ) : ℂ :=
  bitPhase eighthPhase⁻¹ (x.testBit b ^^ x.testBit a) * bitPhase eighthPhase (x.testBit a)

theorem operatorAll_inner {a b c : ℕ} (hac : a ≠ c) (hbc : b ≠ c) :
    operatorAll [plain .cnot [b, c], plain .tdg [c], plain .cnot [a, c], plain .t [c],
      plain .cnot [b, c], plain .tdg [c], plain .cnot [a, c], plain .t [b], plain .t [c]] =
    phases (innerPhase a b c) := by
  apply map_ext
  intro ψ x
  -- four controlled negations of one qubit cancel
  have hback : flipIf (·.testBit b) c (flipIf (·.testBit a) c (flipIf (·.testBit b) c
      (flipIf (·.testBit a) c x))) = x := by
    apply Nat.eq_of_testBit_eq
    intro p
    simp only [testBit_flipIf, if_neg hac, if_neg hbc, if_true]
    split
    · next h =>
      rw [h]
      cases x.testBit a <;> cases x.testBit b <;> cases x.testBit c <;> rfl
    · rfl
  have hthird : (x.testBit c ^^ x.testBit a ^^ x.testBit b ^^ x.testBit a) =
      (x.testBit c ^^ x.testBit b) := by
    cases x.testBit a <;> cases x.testBit b <;> cases x.testBit c <;> rfl
  simp only [operatorAll_cons, operatorAll_nil, operator_cnot hac, operator_cnot hbc, operator_t,
    operator_tdg, LinearMap.comp_apply, phases_apply, LinearMap.funLeft_apply, LinearMap.id_apply,
    hback, testBit_flipIf, if_neg hac, if_neg hbc, if_true, innerPhase, hthird]
  ring

theorem operatorAll_outer {a b : ℕ} (hab : a ≠ b) :
    operatorAll [plain .cnot [a, b], plain .t [a], plain .tdg [b], plain .cnot [a, b]] =
      phases (outerPhase a b) := by
  apply map_ext
  intro ψ x
  have hback : flipIf (·.testBit a) b (flipIf (·.testBit a) b x) = x := by
    apply Nat.eq_of_testBit_eq
    intro p
    simp only [testBit_flipIf, if_neg hab, if_true]
    split
    · next h =>
      rw [h]
      cases x.testBit a <;> cases x.testBit b <;> rfl
    · rfl
  simp only [operatorAll_cons, operatorAll_nil, operator_cnot hab, operator_t, operator_tdg,
    LinearMap.comp_apply, phases_apply, LinearMap.funLeft_apply, LinearMap.id_apply, hback,
    testBit_flipIf, if_neg hab, if_true, outerPhase]
  ring

/-- **The phases cancel** except where all three bits are one. -/
theorem outerPhase_mul_innerPhase (a b c x : ℕ) : outerPhase a b x * innerPhase a b c x =
    bitPhase (-1) (x.testBit a && x.testBit b && x.testBit c) := by
  have hne : eighthPhase ≠ 0 := by
    rw [eighthPhase_eq]
    exact Complex.exp_ne_zero _
  have hpow := eighthPhase_pow_four
  unfold outerPhase innerPhase
  -- only the case of three ones leaves a power of the phase
  cases x.testBit a <;> cases x.testBit b <;> cases x.testBit c <;> simp [hne]
  linear_combination hpow

theorem operatorAll_toffoliNetwork {a b c : ℕ} (h : [a, b, c].Nodup) :
    operatorAll (toffoliNetwork a b c) = (plain .toffoli [a, b, c]).operator := by
  have hab : a ≠ b := by simp at h; omega
  have hac : a ≠ c := by simp at h; omega
  have hbc : b ≠ c := by simp at h; omega
  -- the phase of the last four gates does not look at the target, so it passes the Hadamard gate
  have houter : ∀ v x, outerPhase a b (setBit c v x) = outerPhase a b x := fun v x => by
    simp only [outerPhase, testBit_setBit, if_neg hac, if_neg hbc]
  have hphases : phases (outerPhase a b) ∘ₗ phases (innerPhase a b c) =
      phases (fun x => bitPhase (-1) (x.testBit a && x.testBit b && x.testBit c)) := by
    apply map_ext
    intro ψ x
    rw [LinearMap.comp_apply, phases_apply, phases_apply, phases_apply, ← mul_assoc,
      outerPhase_mul_innerPhase]
  have hsandwich := operator_h_phases_h (fun x => x.testBit a && x.testBit b) c fun v x => by
    simp only [testBit_setBit, if_neg hac, if_neg hbc]
  have hsplit : (toffoliNetwork a b c : List (Gate ℝ)) = plain .h [c] ::
      ([plain .cnot [b, c], plain .tdg [c], plain .cnot [a, c], plain .t [c], plain .cnot [b, c],
        plain .tdg [c], plain .cnot [a, c], plain .t [b], plain .t [c]] ++ plain .h [c] ::
      [plain .cnot [a, b], plain .t [a], plain .tdg [b], plain .cnot [a, b]]) := rfl
  calc operatorAll (toffoliNetwork a b c)
      = (phases (outerPhase a b) ∘ₗ (plain .h [c]).operator) ∘ₗ phases (innerPhase a b c) ∘ₗ
        (plain .h [c]).operator := by
        rw [hsplit, operatorAll_cons, operatorAll_append, operatorAll_cons, operatorAll_outer hab,
          operatorAll_inner hac hbc, LinearMap.comp_assoc]
    _ = (plain .h [c]).operator ∘ₗ (phases (outerPhase a b) ∘ₗ phases (innerPhase a b c)) ∘ₗ
        (plain .h [c]).operator := by
        rw [phases_comp_operator_h houter]
        simp only [LinearMap.comp_assoc]
    _ = (plain .toffoli [a, b, c]).operator := by
        rw [hphases, hsandwich, operator_toffoli h]

/-- Exchanges written out in controlled negations: the second one has its qubits the other way
round. -/
theorem operatorAll_expansion_swap {a b : ℕ} (hab : a ≠ b) :
    operatorAll [plain .cnot [a, b], plain .cnot [b, a], plain .cnot [a, b]] =
      (plain .swap [a, b]).operator := by
  apply map_ext
  intro ψ x
  simp only [operatorAll_cons, operatorAll_nil, operator_cnot hab, operator_cnot hab.symm,
    operator_swap hab, LinearMap.comp_apply, LinearMap.funLeft_apply, LinearMap.id_apply]
  refine congrArg ψ (Nat.eq_of_testBit_eq fun p => ?_)
  simp only [testBit_flipIf, exchangeBits, testBit_setBit]
  cases ha : x.testBit a <;> cases hb : x.testBit b <;> grind

theorem operator_fredkin {a b c : ℕ} (h : [a, b, c].Nodup) :
    (plain .fredkin [a, b, c]).operator =
      LinearMap.funLeft ℂ ℂ fun x => if x.testBit a then exchangeBits b c x else x := by
  apply map_ext
  intro ψ x
  rw [operator_of_exchange rfl (show 5 < 8 by decide) (show 6 < 8 by decide),
    LinearMap.funLeft_apply]
  refine congrArg ψ (Nat.eq_of_testBit_eq fun p => ?_)
  rw [testBit_putBits]
  cases ha : x.testBit a <;> cases hb : x.testBit b <;> cases hc : x.testBit c <;>
    simp [plain, bitsAt, bitFor, exchangeBits, testBit_setBit, ha, hb, hc] <;> grind

/-- A controlled exchange is a doubly controlled negation between two controlled negations. -/
theorem operatorAll_expansion_fredkin {a b c : ℕ} (h : [a, b, c].Nodup) :
    operatorAll (plain .cnot [c, b] :: toffoliNetwork a b c ++ [plain .cnot [c, b]]) =
      (plain .fredkin [a, b, c]).operator := by
  have hcb : c ≠ b := by simp at h; omega
  apply map_ext
  intro ψ x
  simp only [List.cons_append, operatorAll_cons, operatorAll_append, operatorAll_nil,
    operatorAll_toffoliNetwork h, operator_toffoli h, operator_cnot hcb, operator_fredkin h,
    LinearMap.comp_apply, LinearMap.funLeft_apply, LinearMap.id_apply]
  refine congrArg ψ (Nat.eq_of_testBit_eq fun p => ?_)
  -- with the control at zero the two negations cancel, with the control at one all three exchange
  rw [apply_ite (Nat.testBit · p)]
  simp only [testBit_flipIf, exchangeBits, testBit_setBit]
  cases ha : x.testBit a <;> cases hb : x.testBit b <;> cases hc : x.testBit c <;> grind

/-- Kinds that do not rotate act alike with and without parameters. -/
theorem operator_plain {g : Gate ℝ} (hg : g.WellFormed) (hk : g.kind ≠ .custom)
    (hr : g.isRotation = false) : (plain g.kind g.qubits).operator = g.operator := by
  have hmatrix : g.matrix = (plain g.kind g.qubits : Gate ℝ).matrix := by
    rw [hg.matrix_eq hk]
    exact GateKind.unitary_congr hr _ _ _
  have hqubits : (plain g.kind g.qubits : Gate ℝ).qubits = g.qubits := rfl
  rw [operator_eq hqubits, ← hmatrix]
  rfl

/-- **Every gate acts as its expansion does**, without a phase left over. -/
theorem operatorAll_expansion {g : Gate ℝ} (hg : g.WellFormed) :
    operatorAll g.expansion = g.operator := by
  have hnodup := hg.nodup
  -- kinds that are written out neither rotate nor carry a matrix of their own
  have hplain : ∀ {k : GateKind} {qs : List ℕ}, g.kind = k → g.qubits = qs → k ≠ .custom →
      k.isRotation = false → g.operator = (plain k qs).operator := by
    rintro k qs rfl rfl hk hr
    exact (operator_plain hg hk hr).symm
  cases hg.expands with
  | toffoli hk hq hlist =>
    rw [hlist, hplain hk hq (by decide) rfl]
    exact operatorAll_toffoliNetwork (hq ▸ hnodup)
  | @cz a b hk hq hlist =>
    have hab : a ≠ b := by simpa [hq] using hnodup
    rw [hlist, hplain hk hq (by decide) rfl]
    exact operatorAll_expansion_cz hab
  | @swap a b hk hq hlist =>
    have hab : a ≠ b := by simpa [hq] using hnodup
    rw [hlist, hplain hk hq (by decide) rfl]
    exact operatorAll_expansion_swap hab
  | fredkin hk hq hlist =>
    rw [hlist, hplain hk hq (by decide) rfl]
    exact operatorAll_expansion_fredkin (hq ▸ hnodup)
  | self _ hlist =>
    rw [hlist]
    exact LinearMap.id_comp _

end QuantumWorkbench.Gate
