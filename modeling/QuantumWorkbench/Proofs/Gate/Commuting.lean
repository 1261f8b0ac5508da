import Mathlib
import QuantumWorkbench.Proofs.Gate.Fidelity
import QuantumWorkbench.Proofs.Simulation

/-!
# When gates commute

The commutation test knows three reasons for two gates to commute. Unless a gate has a matrix of its
own, the test holds exactly where one of the reasons does, so that the order of the two gates is of
no account; and each reason is sound for the operators of the gates on any register.
-/

namespace QuantumWorkbench.Gate

open Register

/-! ## The reasons -/

section

variable {α : Type} [Scalar α] {a b : Gate α}

/-- The reasons for which two gates are taken to commute. -/
inductive Exchangeable (a b : Gate α) : Prop where
  /-- They have no qubit in common. -/
  | apart (h : a.qubits.Disjoint b.qubits)
  /-- They are of one kind on the same qubits. -/
  | alike (hkind : a.kind = b.kind) (hqubits : a.qubits = b.qubits)
  /-- They turn one qubit about one axis. -/
  | aboutAxis (axis : Axis) (ha : a.kind.axis = some axis) (hb : b.kind.axis = some axis)
      (hqubits : a.qubits = b.qubits)

omit [Scalar α] in
theorem Exchangeable.symm (h : a.Exchangeable b) : b.Exchangeable a := by
  cases h with
  | apart h => exact .apart h.symm
  | alike hkind hqubits => exact .alike hkind.symm hqubits.symm
  | aboutAxis axis ha hb hqubits => exact .aboutAxis axis hb ha hqubits.symm

omit [Scalar α] in
theorem sharesQubit_eq_false_iff : a.sharesQubit b = false ↔ a.qubits.Disjoint b.qubits := by
  simp [sharesQubit, List.disjoint_left]

/-- Gates of one kind on the same qubits pass the test, unless their matrices are their own. -/
theorem commutes_of_kind (ha : a.WellFormed) (hb : b.WellFormed) (hcustom : a.kind ≠ .custom)
    (hkind : a.kind = b.kind) (hqubits : a.qubits = b.qubits) : a.commutes b = true := by
  have hblank : a.isBlank = !a.kind.hasClosedForm := by
    simp [isBlank, ha.ownMatrix_eq_none hcustom]
  have hblank' : b.isBlank = !a.kind.hasClosedForm := by
    simp [isBlank, hb.ownMatrix_eq_none (hkind ▸ hcustom), hkind]
  unfold commutes
  split
  · rfl
  · -- without a closed form both are blank
    rw [if_pos (by simp [hkind, hqubits]), hblank, hblank']
    cases a.kind.hasClosedForm <;> rfl

/-- Gates that turn one qubit about one axis pass the test. -/
theorem commutes_of_axis (ha : a.WellFormed) (hb : b.WellFormed) {axis : Axis}
    (hax : a.kind.axis = some axis) (hbx : b.kind.axis = some axis)
    (hqubits : a.qubits = b.qubits) : a.commutes b = true := by
  by_cases hkind : a.kind = b.kind
  · exact commutes_of_kind ha hb (GateKind.ne_custom_of_axis hax) hkind hqubits
  · have hwidth : a.width = 1 := ha.arity 1 (GateKind.arity_of_axis hax)
    have haxis : a.sameAxis b = true := by simp [sameAxis, hax, hbx]
    unfold commutes
    split
    · rfl
    · rw [if_neg (by simp [hkind])]
      simp [hwidth, hqubits, haxis]

/-- **The commutation test holds exactly for the three reasons**, unless a gate has a matrix of its
own. -/
theorem commutes_iff (ha : a.WellFormed) (hb : b.WellFormed) (hcustom : a.kind ≠ .custom) :
    a.commutes b = true ↔ a.Exchangeable b := by
  constructor
  · intro h
    rcases commutes_cases h with hdisjoint | ⟨hkind, hqubits⟩ | ⟨axis, hax, hbx, hqubits⟩
    · exact .apart hdisjoint
    · exact .alike hkind hqubits
    · exact .aboutAxis axis hax hbx hqubits
  · intro h
    cases h with
    | apart h => simp [commutes, sharesQubit_eq_false_iff.2 h]
    | alike hkind hqubits => exact commutes_of_kind ha hb hcustom hkind hqubits
    | aboutAxis axis hax hbx hqubits => exact commutes_of_axis ha hb hax hbx hqubits

theorem commutes_symm (ha : a.WellFormed) (hb : b.WellFormed) (hacustom : a.kind ≠ .custom)
    (hbcustom : b.kind ≠ .custom) : a.commutes b = b.commutes a := by
  rw [Bool.eq_iff_iff, commutes_iff ha hb hacustom, commutes_iff hb ha hbcustom]
  exact ⟨Exchangeable.symm, Exchangeable.symm⟩

end

/-! ## Vectors -/

section

variable {n : ℕ} (hn : n < 64) {a b : Gate ℝ} (ha : a.BuiltIn n) (hb : b.BuiltIn n)
  {v : Array (Amplitude ℝ)} (hsize : v.size = 2 ^ n)
include hn ha hb hsize

/-- Gates whose operators commute may act on a vector in either order. -/
theorem act_comm_of_operator (h : a.operator ∘ₗ b.operator = b.operator ∘ₗ a.operator) :
    b.act (a.act v) = a.act (b.act v) := by
  have hgates : ∀ g ∈ [a, b], g.BuiltIn n := by simp [ha, hb]
  have hswapped : ∀ g ∈ [b, a], g.BuiltIn n := by simp [ha, hb]
  obtain ⟨hsize₁, hwave₁⟩ := wave_actAll hn hgates hsize
  obtain ⟨hsize₂, hwave₂⟩ := wave_actAll hn hswapped hsize
  apply eq_of_wave hsize₁ hsize₂
  rw [hwave₁, hwave₂]
  simp only [operatorAll_cons, operatorAll_nil, LinearMap.id_comp, h]

end

/-! ## The test -/

/-- **The commutation test is symmetric and sound.** Over any scalars, and for constructed gates
without matrices of their own, it holds exactly where the gates have no qubit in common, are of one
kind on the same qubits, or turn one qubit about one axis; so it holds in both orders or in none.
Without rounding gates that pass it commute as operators on any register, and on the vector of a
register that has their qubits it does not matter which of them acts first. The entries of a vector
are counted by a word of 64 bits, whence the bound on its width. -/
theorem commutes_symm_and_sound :
    (∀ {α : Type} [Scalar α] {a b : Gate α}, a.Built → b.Built →
      a.kind ≠ .custom → b.kind ≠ .custom →
      a.commutes b = b.commutes a ∧ (a.commutes b = true ↔ a.Exchangeable b)) ∧
    (∀ {a b : Gate ℝ}, a.Built → b.Built → a.kind ≠ .custom → b.kind ≠ .custom →
      a.commutes b = true → a.operator ∘ₗ b.operator = b.operator ∘ₗ a.operator) ∧
    ∀ {n : ℕ} {a b : Gate ℝ} {v : Array (Amplitude ℝ)}, n < 64 → a.BuiltIn n → b.BuiltIn n →
      a.kind ≠ .custom → b.kind ≠ .custom → a.commutes b = true → v.size = 2 ^ n →
      b.act (a.act v) = a.act (b.act v) := by
  refine ⟨?symmetric, ?operators, ?vectors⟩
  case symmetric =>
    intro α _ a b ha hb hacustom hbcustom
    exact ⟨commutes_symm ha.wellFormed hb.wellFormed hacustom hbcustom,
      commutes_iff ha.wellFormed hb.wellFormed hacustom⟩
  case operators =>
    intro a b ha hb hacustom _ h
    exact operator_comm ha.wellFormed hb.wellFormed hacustom h
  case vectors =>
    intro n a b v hn ha hb hacustom _ h hsize
    apply act_comm_of_operator hn ha hb hsize
    exact operator_comm ha.built.wellFormed hb.built.wellFormed hacustom h

/-- A turn about the third axis and a phase on the same qubit, which is neither the first nor the
last of the register. -/
theorem commutes_symm_and_sound_phases : ∃ turn : Gate ℝ, Gate.rotation .rz 1 0.3 = .ok turn ∧
    turn.commutes (plain .s [1]) = true ∧ (plain .s [1] : Gate ℝ).commutes turn = true ∧
    turn.operator ∘ₗ (plain .s [1] : Gate ℝ).operator =
      (plain .s [1] : Gate ℝ).operator ∘ₗ turn.operator ∧
    ∀ v : Array (Amplitude ℝ), v.size = 2 ^ 3 →
      (plain .s [1]).act (turn.act v) = turn.act ((plain .s [1]).act v) := by
  have hturn : Gate.rotation .rz 1 (0.3 : ℝ) =
      .ok ⟨.rz, [1], SortedMap.empty.insert "lambda" 0.3, none, 1⟩ :=
    make_eq_ok.2 ⟨rfl, FullFidelity.check, rfl, rfl⟩
  refine ⟨_, hturn, ?_⟩
  have ha := Built.rotation hturn
  have hb : (plain .s [1] : Gate ℝ).Built := built_plain rfl rfl
  have hcustom : GateKind.rz ≠ .custom := by decide
  have hcustom' : (plain .s [1] : Gate ℝ).kind ≠ .custom := by decide
  obtain ⟨hsymm, hiff⟩ := commutes_symm_and_sound.1 ha hb hcustom hcustom'
  have hcommutes := hiff.2 (.aboutAxis .z rfl rfl rfl)
  refine ⟨hcommutes, hsymm ▸ hcommutes, ?_, fun v hsize => ?_⟩
  · exact commutes_symm_and_sound.2.1 ha hb hcustom hcustom' hcommutes
  · exact commutes_symm_and_sound.2.2 (show 3 < 64 by decide) ⟨ha, by simp⟩
      ⟨hb, by simp [plain]⟩ hcustom hcustom' hcommutes hsize

end QuantumWorkbench.Gate
