import Mathlib
import QuantumWorkbench.Proofs.Algorithm.PhaseFlip
import QuantumWorkbench.Proofs.Simulation

/-!
# The success law of amplitude amplification

On waves of the register every oracle is the sign of one basis state, and the diffusion subtracts
twice the mean. So the waves with one amplitude on the marked states and one on the others are kept,
and a round turns the two amplitudes by a fixed angle.
-/

namespace QuantumWorkbench.Amplification

open Gate Placement Register

/-! ## Negations -/

/-- The index with its bits at some qubits flipped. -/
def negated (qs : List ℕ) (x : ℕ) : ℕ := qs.foldr (flipIf fun _ => true) x

theorem testBit_negated {qs : List ℕ} (hqs : qs.Nodup) (x p : ℕ) :
    (negated qs x).testBit p = (x.testBit p ^^ decide (p ∈ qs)) := by
  induction qs with
  | nil => simp [negated]
  | cons q qs ih =>
    obtain ⟨hq, hqs⟩ := List.nodup_cons.1 hqs
    have hrest := ih hqs
    rw [negated, List.foldr_cons, ← negated, testBit_flipIf]
    by_cases hp : p = q
    · subst hp
      simp [hrest, hq]
    · simp [hrest, hp]

theorem negated_involutive {qs : List ℕ} (hqs : qs.Nodup) : Function.Involutive (negated qs) := by
  intro x
  apply Nat.eq_of_testBit_eq
  intro p
  rw [testBit_negated hqs, testBit_negated hqs, Bool.xor_assoc, Bool.xor_self, Bool.xor_false]

theorem effect_negations (qs : List ℕ) :
    effect (qs.map fun q => .of .x [q]) = LinearMap.funLeft ℂ ℂ (negated qs) := by
  induction qs with
  | nil => rfl
  | cons q qs ih =>
    rw [List.map_cons, effect_cons, ih, made_of, operator_x]
    rfl

/-! ## The phase flip of a register -/

theorem all_testBit {n x : ℕ} (hx : x < 2 ^ n) :
    (List.range n).all x.testBit = decide (x = 2 ^ n - 1) := by
  have hlast : 2 ^ n - 1 < 2 ^ n := Nat.sub_lt (Nat.two_pow_pos n) one_pos
  rw [Bool.eq_iff_iff, List.all_eq_true, decide_eq_true_iff, eq_iff_testBit hx hlast]
  refine forall_congr' fun q => ?_
  rw [List.mem_range, Nat.testBit_two_pow_sub_one]
  exact forall_congr' fun hq => by rw [decide_eq_true hq]

/-- A family multiplies by a phase, which on a register is the sign of the all-ones state. -/
structure FlipsOnes (n : ℕ) (flip : List (Placement ℝ)) (F : ℕ → ℂ) : Prop where
  effect : effect flip = phases F
  sign : ∀ x < 2 ^ n, F x = bitPhase (-1) (decide (x = 2 ^ n - 1))

/-- The search has its phase flip: the work qubits after a register are enough. -/
theorem exists_flipsOnes {n : ℕ} (hn : 0 < n) : ∃ flip : List (Placement ℝ), ∃ F,
    phaseFlip (List.range n) (List.range' n (workQubits n)) = .ok flip ∧
    (∀ p ∈ flip, p.FitsIn (n + workQubits n)) ∧ FlipsOnes n flip F := by
  have hne : List.range n ≠ [] := by simpa using hn.ne'
  have hall : List.range n ++ List.range' n (workQubits n) = List.range (n + workQubits n) := by
    have happend := List.range'_append_1 (s := 0) (m := n) (n := workQubits n)
    rwa [Nat.zero_add, ← List.range_eq_range', ← List.range_eq_range'] at happend
  obtain ⟨flip, hplaced, hfits, F, heffect, hsign⟩ := phaseFlip_of_nodup hne
    (hall ▸ List.nodup_range) (by rw [List.length_range, List.length_range'])
  refine ⟨flip, F, hplaced, hfits _ fun q hq => List.mem_range.1 (hall ▸ hq), heffect,
    fun x hx => (hsign x fun w hw => ?_).trans (congrArg _ (all_testBit hx))⟩
  -- beyond the register an index of it has no bits
  have hle : n ≤ w := (List.mem_range'_1.1 hw).1
  exact Nat.testBit_lt_two_pow (hx.trans_le (Nat.pow_le_pow_right two_pos hle))

section

variable {n : ℕ} {flip : List (Placement ℝ)} {F : ℕ → ℂ} (hflip : FlipsOnes n flip F)
include hflip

/-! ## Oracles -/

/-- **An oracle is the sign of its basis state.** -/
theorem effect_oracle {m : ℕ} (hm : m < 2 ^ n) : ∃ G : ℕ → ℂ,
    effect (oracle flip (List.range n) m) = phases G ∧
    ∀ x < 2 ^ n, G x = bitPhase (-1) (decide (x = m)) := by
  have hzeros : ((List.range n).filter fun q => !m.testBit q).Nodup := List.nodup_range.filter _
  generalize hlist : ((List.range n).filter fun q => !m.testBit q) = zeros at hzeros
  have hmem : ∀ q, q ∈ zeros ↔ q < n ∧ m.testBit q = false := fun q => by
    rw [← hlist, List.mem_filter, List.mem_range, Bool.not_eq_true']
  refine ⟨fun x => F (negated zeros x), ?_, fun x hx => ?_⟩
  · rw [oracle, flipZeros, hlist, effect_append, effect_append, effect_negations, hflip.effect]
    exact funLeft_phases_funLeft (negated_involutive hzeros) F
  · have hinside : negated zeros x < 2 ^ n := (lt_two_pow_congr fun p hp => by
      have hout : p ∉ zeros := fun h => absurd ((hmem p).1 h).1 (by omega)
      rw [testBit_negated hzeros, decide_eq_false hout, Bool.xor_false]).2 hx
    -- the negated index has only ones exactly where the bits agree
    have hones : negated zeros x = 2 ^ n - 1 ↔ x = m := by
      rw [eq_iff_testBit hinside (Nat.sub_lt (Nat.two_pow_pos n) one_pos), eq_iff_testBit hx hm]
      refine forall_congr' fun q => forall_congr' fun hq => ?_
      rw [testBit_negated hzeros, Nat.testBit_two_pow_sub_one, decide_eq_true hq]
      cases hmq : m.testBit q <;> simp [hmem, hq, hmq]
    exact (hflip.sign _ hinside).trans (congrArg _ (decide_eq_decide.2 hones))

/-- The oracles of a list multiply by a sign for each time a state is listed. -/
theorem effect_oracles {marked : List ℕ} (hmarked : ∀ m ∈ marked, m < 2 ^ n) : ∃ G : ℕ → ℂ,
    effect (marked.flatMap (oracle flip (List.range n))) = phases G ∧
    ∀ x < 2 ^ n, G x = (-1) ^ marked.count x := by
  induction marked with
  | nil => exact ⟨fun _ => 1, phases_one.symm, fun x _ => by simp⟩
  | cons m marked ih =>
    obtain ⟨hm, hmarked⟩ := List.forall_mem_cons.1 hmarked
    obtain ⟨G, hG, hsign⟩ := ih hmarked
    obtain ⟨H, hH, hfirst⟩ := effect_oracle hflip hm
    refine ⟨fun x => G x * H x, by rw [effect_flatMap_cons, hG, hH, phases_comp], fun x hx => ?_⟩
    show G x * H x = _
    rw [hsign x hx, hfirst x hx, List.count_cons]
    by_cases hxm : x = m
    · simp [hxm, pow_succ]
    · simp [hxm, Ne.symm hxm]

end

/-! ## Diffusion -/

theorem hadamard_zero (i : Fin 2) : hadamard i 0 = (Scalar.invSqrtTwo : ℝ) := by
  fin_cases i <;> rfl

theorem hadamard_pauli_x_one (i : Fin 2) :
    (hadamard * Axis.x.pauli) i 1 = (Scalar.invSqrtTwo : ℝ) := by
  fin_cases i <;> simp [hadamard, Axis.pauli, Matrix.mul_apply]

theorem pauli_x_hadamard_one (j : Fin 2) :
    (Axis.x.pauli * hadamard) 1 j = (Scalar.invSqrtTwo : ℝ) := by
  fin_cases j <;> simp [hadamard, Axis.pauli, Matrix.mul_apply]

theorem invSqrtTwo_pow_mul_self (n : ℕ) :
    ((Scalar.invSqrtTwo : ℝ) : ℂ) ^ n * (Scalar.invSqrtTwo : ℝ) ^ n = 1 / 2 ^ n := by
  rw [← mul_pow, Scalar.invSqrtTwo_mul_self_complex, one_div_pow]

theorem place_testBit_last {n q : ℕ} (hq : q < n) : place ((2 ^ n - 1).testBit q) = 1 := by
  rw [Nat.testBit_two_pow_sub_one, decide_eq_true hq]
  rfl

/-- Superposition and negation of a register, read at the all-ones state. -/
theorem layer_last (n : ℕ) (ψ : Wave) :
    layer id (fun _ => Axis.x.pauli * hadamard) (List.range n) ψ (2 ^ n - 1) =
      (Scalar.invSqrtTwo : ℝ) ^ n * ∑ c ∈ Finset.range (2 ^ n), ψ c := by
  rw [layer_range_apply, Finset.mul_sum]
  refine Finset.sum_congr rfl fun c _ => ?_
  rw [withLow_of_lt (Nat.sub_lt (Nat.two_pow_pos n) one_pos), weight_eq_pow fun q hq => ?_]
  rw [place_testBit_last hq]
  exact pauli_x_hadamard_one _

/-- Negation and superposition of the all-ones state of a register. -/
theorem layer_single_last (n x : ℕ) :
    layer id (fun _ => hadamard * Axis.x.pauli) (List.range n) (Pi.single (2 ^ n - 1) 1) x =
      if x < 2 ^ n then ((Scalar.invSqrtTwo : ℝ) : ℂ) ^ n else 0 := by
  rw [layer_range_single _ (Nat.sub_lt (Nat.two_pow_pos n) one_pos), weight_eq_pow fun q hq => ?_]
  rw [place_testBit_last hq]
  exact hadamard_pauli_x_one _

/-- One gate and then another on every qubit of a list. -/
theorem effect_pairs {k k' : GateKind} {M M' : Matrix (Fin 2) (Fin 2) ℂ}
    (hk : ∀ q, (plain k [q]).operator = applyAt [q] M)
    (hk' : ∀ q, (plain k' [q]).operator = applyAt [q] M') (qs : List ℕ) :
    effect (qs.flatMap fun q => [.of k [q], .of k' [q]]) = layer id (fun _ => M' * M) qs :=
  effect_flatMap_eq_layer (fun q => by
    rw [effect_cons, effect_of, made_of, hk, hk']
    exact (applyAt_mul (List.nodup_singleton q) _ _).symm) qs

/-- Superposition and negation are undone by negation and superposition. -/
theorem layer_back_forth (n : ℕ) : layer id (fun _ => hadamard * Axis.x.pauli) (List.range n) ∘ₗ
    layer id (fun _ => Axis.x.pauli * hadamard) (List.range n) = LinearMap.id := by
  have hone : hadamard * Axis.x.pauli * (Axis.x.pauli * hadamard) = 1 := by
    rw [Matrix.mul_assoc, ← Matrix.mul_assoc Axis.x.pauli, Axis.pauli_mul_self, Matrix.one_mul,
      hadamard_mul_self]
  rw [layer_comp _ _ (by simpa using List.nodup_range), hone, layer_one]

/-- Flipping the sign of the all-ones state takes twice its amplitude away. -/
theorem FlipsOnes.phases_eq {n : ℕ} {flip : List (Placement ℝ)} {F : ℕ → ℂ}
    (hflip : FlipsOnes n flip F) {φ : Wave} (hφ : ∀ x, 2 ^ n ≤ x → φ x = 0) :
    phases F φ = φ - (2 * φ (2 ^ n - 1)) • Pi.single (2 ^ n - 1) 1 := by
  funext y
  rw [phases_apply, Pi.sub_apply, Pi.smul_apply, smul_eq_mul]
  by_cases hy : y < 2 ^ n
  · rw [hflip.sign y hy]
    by_cases hlast : y = 2 ^ n - 1
    · rw [decide_eq_true hlast, bitPhase_true, hlast, Pi.single_eq_same]
      ring
    · rw [decide_eq_false hlast, bitPhase_false, Pi.single_eq_of_ne hlast]
      ring
  · have hlast : y ≠ 2 ^ n - 1 := by
      have hpos := Nat.two_pow_pos n
      omega
    rw [hφ y (Nat.le_of_not_lt hy), Pi.single_eq_of_ne hlast]
    ring

/-- **The diffusion subtracts twice the mean** from a wave of the register. -/
theorem effect_diffusion {n : ℕ} {flip : List (Placement ℝ)} {F : ℕ → ℂ}
    (hflip : FlipsOnes n flip F) {ψ : Wave} (hψ : ∀ x, 2 ^ n ≤ x → ψ x = 0) (x : ℕ) :
    effect (diffusion flip (List.range n)) ψ x =
      if x < 2 ^ n then ψ x - 2 / 2 ^ n * ∑ c ∈ Finset.range (2 ^ n), ψ c else 0 := by
  have hforth := effect_pairs operator_h_eq operator_x_eq (List.range n)
  have hback := effect_pairs operator_x_eq operator_h_eq (List.range n)
  -- in the turned frame only the amplitude of the all-ones state changes
  obtain ⟨φ, hφ⟩ : ∃ φ, φ = layer id (fun _ => Axis.x.pauli * hadamard) (List.range n) ψ :=
    ⟨_, rfl⟩
  have hflipped := hflip.phases_eq fun y hy => hφ ▸ layer_range_eq_zero _ hψ hy
  rw [diffusion, effect_append, effect_append, hforth, hback, hflip.effect, LinearMap.comp_apply,
    LinearMap.comp_apply, ← hφ, hflipped, map_sub, map_smul, Pi.sub_apply, Pi.smul_apply,
    layer_single_last, hφ, layer_last, ← LinearMap.comp_apply, layer_back_forth,
    LinearMap.id_apply, smul_eq_mul]
  split
  · linear_combination (-2 * ∑ c ∈ Finset.range (2 ^ n), ψ c) * invSqrtTwo_pow_mul_self n
  · next hx => rw [hψ x (Nat.le_of_not_lt hx), mul_zero, sub_zero]

/-! ## Rounds -/

/-- The wave of a register with one amplitude on the marked states and one on the others. -/
noncomputable def twoLevel (n : ℕ) (marked : List ℕ) (a b : ℝ) : Wave := fun x =>
  if x < 2 ^ n then ((if x ∈ marked then a else b : ℝ) : ℂ) else 0

/-- The share of marked states in a register. -/
noncomputable def share (n : ℕ) (marked : List ℕ) : ℝ := marked.length / 2 ^ n

/-- The gates of one round. -/
def round {α : Type} (flip : List (Placement α)) (n : ℕ) (marked : List ℕ) : List (Placement α) :=
  marked.flatMap (oracle flip (List.range n)) ++ diffusion flip (List.range n)

/-- The gates of a search. -/
def gates {α : Type} (flip : List (Placement α)) (n : ℕ) (marked : List ℕ) (k : ℕ) :
    List (Placement α) :=
  ((List.range n).map fun q => .of .h [q]) ++ (List.replicate k (round flip n marked)).flatten

theorem gates_succ {α : Type} (flip : List (Placement α)) (n : ℕ) (marked : List ℕ) (k : ℕ) :
    gates flip n marked (k + 1) = gates flip n marked k ++ round flip n marked := by
  rw [gates, gates, List.replicate_succ', List.flatten_append, List.flatten_singleton,
    List.append_assoc]

theorem twoLevel_of_le {n : ℕ} {marked : List ℕ} {a b : ℝ} {x : ℕ} (hx : 2 ^ n ≤ x) :
    twoLevel n marked a b x = 0 := if_neg (Nat.not_lt.2 hx)

section

variable {n : ℕ} {marked : List ℕ} (hnodup : marked.Nodup) (hmarked : ∀ m ∈ marked, m < 2 ^ n)
include hnodup hmarked

theorem sum_twoLevel (a b : ℝ) : ∑ c ∈ Finset.range (2 ^ n), twoLevel n marked a b c =
    ((2 ^ n * (share n marked * a + (1 - share n marked) * b) : ℝ) : ℂ) := by
  -- no index is marked twice, so the marks count the marked indices
  have hcard : ((Finset.range (2 ^ n)).filter (· ∈ marked)).card = marked.length := by
    rw [← List.toFinset_card_of_nodup hnodup]
    congr 1
    ext m
    simpa using hmarked m
  have hsplit := Finset.card_filter_add_card_filter_not (s := Finset.range (2 ^ n)) (· ∈ marked)
  rw [hcard, Finset.card_range] at hsplit
  have hrest : (((Finset.range (2 ^ n)).filter (· ∉ marked)).card : ℝ) =
      2 ^ n - marked.length := by
    rw [eq_sub_iff_add_eq', ← Nat.cast_add, hsplit]
    push_cast
    rfl
  have hsum : ∑ c ∈ Finset.range (2 ^ n), (if c ∈ marked then a else b) =
      2 ^ n * (share n marked * a + (1 - share n marked) * b) := by
    rw [Finset.sum_ite, Finset.sum_const, Finset.sum_const, nsmul_eq_mul, nsmul_eq_mul, hcard,
      hrest, share]
    field_simp
  rw [← hsum, Complex.ofReal_sum]
  exact Finset.sum_congr rfl fun c hc => if_pos (Finset.mem_range.1 hc)

theorem effect_marking {flip : List (Placement ℝ)} {F : ℕ → ℂ} (hflip : FlipsOnes n flip F)
    (a b : ℝ) : effect (marked.flatMap (oracle flip (List.range n))) (twoLevel n marked a b) =
      twoLevel n marked (-a) b := by
  obtain ⟨G, hG, hsign⟩ := effect_oracles hflip hmarked
  funext x
  rw [hG, phases_apply]
  by_cases hx : x < 2 ^ n
  · rw [hsign x hx, twoLevel, if_pos hx, twoLevel, if_pos hx]
    by_cases hxm : x ∈ marked
    · rw [List.count_eq_one_of_mem hnodup hxm, if_pos hxm, if_pos hxm]
      push_cast
      ring
    · rw [List.count_eq_zero_of_not_mem hxm, if_neg hxm, if_neg hxm, pow_zero, one_mul]
  · rw [twoLevel_of_le (Nat.le_of_not_lt hx), twoLevel_of_le (Nat.le_of_not_lt hx), mul_zero]

/-- **A round keeps the plane** of the waves with two amplitudes. -/
theorem effect_round {flip : List (Placement ℝ)} {F : ℕ → ℂ} (hflip : FlipsOnes n flip F)
    (a b : ℝ) : effect (round flip n marked) (twoLevel n marked a b) = twoLevel n marked
      (-((1 - 2 * share n marked) * a + 2 * (1 - share n marked) * b))
      (-((1 - 2 * share n marked) * b - 2 * share n marked * a)) := by
  have hpow : ((2 : ℂ) ^ n) ≠ 0 := pow_ne_zero n two_ne_zero
  funext x
  rw [round, effect_append, LinearMap.comp_apply, effect_marking hnodup hmarked hflip,
    effect_diffusion hflip fun y hy => twoLevel_of_le hy, sum_twoLevel hnodup hmarked, twoLevel,
    twoLevel]
  by_cases hx : x < 2 ^ n
  · rw [if_pos hx, if_pos hx, if_pos hx]
    push_cast
    rw [← mul_assoc, div_mul_cancel₀ _ hpow]
    split <;> push_cast <;> ring
  · rw [if_neg hx, if_neg hx]

end

/-- The search starts in the plane, with both amplitudes equal. -/
theorem effect_opening (n : ℕ) (marked : List ℕ) :
    effect ((List.range n).map fun q => .of .h [q]) startWave =
      twoLevel n marked ((Scalar.invSqrtTwo : ℝ) ^ n) ((Scalar.invSqrtTwo : ℝ) ^ n) := by
  have hlayer : effect ((List.range n).map fun q => .of .h [q]) =
      layer id (fun _ => hadamard) (List.range n) := by
    rw [List.map_eq_flatMap]
    exact effect_flatMap_eq_layer (fun q => (effect_of .h [q]).trans (operator_h_eq q)) _
  funext x
  rw [hlayer, startWave, layer_range_single _ (Nat.two_pow_pos n), twoLevel, ite_self,
    weight_eq_pow fun q _ => ?_]
  · push_cast
    rfl
  · rw [Nat.zero_testBit]
    exact hadamard_zero _

/-! ## Runs -/

theorem sqrt_two_pow_mul_invSqrtTwo_pow (n : ℕ) :
    Real.sqrt 2 ^ n * (Scalar.invSqrtTwo : ℝ) ^ n = 1 := by
  have hsq : Real.sqrt 2 * Real.sqrt 2 = 2 := Real.mul_self_sqrt two_pos.le
  rw [← mul_pow, Scalar.invSqrtTwo_real, mul_div_assoc', hsq, div_self two_ne_zero, one_pow]

section

variable {n : ℕ} {marked : List ℕ} (hnodup : marked.Nodup) (hmarked : ∀ m ∈ marked, m < 2 ^ n)
include hnodup hmarked

/-- **Each round turns by twice the angle** whose squared sine is the share of marked states. -/
theorem effect_gates {flip : List (Placement ℝ)} {F : ℕ → ℂ} (hflip : FlipsOnes n flip F) (k : ℕ) :
    ∃ a b : ℝ, effect (gates flip n marked k) startWave = twoLevel n marked a b ∧
      ∀ θ : ℝ, Real.sin θ ^ 2 = share n marked →
        Real.sqrt 2 ^ n * Real.sin θ * a = (-1) ^ k * Real.sin ((2 * k + 1) * θ) ∧
        Real.sqrt 2 ^ n * Real.cos θ * b = (-1) ^ k * Real.cos ((2 * k + 1) * θ) := by
  induction k with
  | zero =>
    have hstart := sqrt_two_pow_mul_invSqrtTwo_pow n
    refine ⟨(Scalar.invSqrtTwo : ℝ) ^ n, (Scalar.invSqrtTwo : ℝ) ^ n, ?_, fun θ _ => ⟨?_, ?_⟩⟩
    · rw [gates, List.replicate_zero, List.flatten_nil, List.append_nil, effect_opening]
    · rw [mul_right_comm, hstart]
      simp
    · rw [mul_right_comm, hstart]
      simp
  | succ k ih =>
    obtain ⟨a, b, hwave, hangle⟩ := ih
    refine ⟨_, _, by rw [gates_succ, effect_append, LinearMap.comp_apply, hwave,
      effect_round hnodup hmarked hflip], fun θ hθ => ?_⟩
    obtain ⟨ha, hb⟩ := hangle θ hθ
    -- the round is the addition formula for the angle so far and twice the angle
    have hnext : ((2 * (k + 1 : ℕ) + 1) * θ : ℝ) = (2 * k + 1) * θ + 2 * θ := by
      push_cast
      ring
    have hcos : Real.cos (2 * θ) = 1 - 2 * share n marked := by
      rw [Real.cos_two_mul, Real.cos_sq', hθ]
      ring
    have hshare : 1 - share n marked = Real.cos θ ^ 2 := by
      rw [← hθ, Real.cos_sq']
    rw [hnext, Real.sin_add, Real.cos_add, hcos, Real.sin_two_mul, pow_succ, hshare, ← hθ]
    constructor
    · linear_combination (-(1 - 2 * Real.sin θ ^ 2)) * ha - 2 * Real.sin θ * Real.cos θ * hb
    · linear_combination (-(1 - 2 * Real.sin θ ^ 2)) * hb + 2 * Real.sin θ * Real.cos θ * ha

end

/-! ## The circuit -/

section

variable {n width : ℕ} (hwidth : n ≤ width) {flip : List (Placement ℝ)}
  (hfits : ∀ p ∈ flip, p.FitsIn width)
include hwidth

theorem fitsIn_range {kind : GateKind} {q : ℕ} (hkind : kind.arity = some 1)
    (hq : q ∈ List.range n) : (of kind [q] : Placement ℝ).FitsIn width :=
  fitsIn_one hkind ((List.mem_range.1 hq).trans_le hwidth)

theorem fitsIn_flipZeros (m : ℕ) :
    ∀ p ∈ (flipZeros (List.range n) m : List (Placement ℝ)), p.FitsIn width := by
  intro p hp
  obtain ⟨q, hq, rfl⟩ := List.mem_map.1 hp
  exact fitsIn_range hwidth rfl (List.mem_of_mem_filter hq)

include hfits

theorem fitsIn_round (marked : List ℕ) : ∀ p ∈ round flip n marked, p.FitsIn width := by
  intro p hp
  rcases List.mem_append.1 hp with hp | hp
  · -- an oracle for each marked state
    obtain ⟨m, -, hp⟩ := List.mem_flatMap.1 hp
    simp only [oracle, List.mem_append] at hp
    rcases hp with (hp | hp) | hp
    · exact fitsIn_flipZeros hwidth m p hp
    · exact hfits p hp
    · exact fitsIn_flipZeros hwidth m p hp
  · simp only [diffusion, List.mem_append, List.mem_flatMap, List.mem_cons, List.not_mem_nil,
      or_false] at hp
    rcases hp with (⟨q, hq, rfl | rfl⟩ | hp) | ⟨q, hq, rfl | rfl⟩
    · exact fitsIn_range hwidth rfl hq
    · exact fitsIn_range hwidth rfl hq
    · exact hfits p hp
    · exact fitsIn_range hwidth rfl hq
    · exact fitsIn_range hwidth rfl hq

theorem fitsIn_gates (marked : List ℕ) (k : ℕ) :
    ∀ p ∈ gates flip n marked k, p.FitsIn width := by
  intro p hp
  rcases List.mem_append.1 hp with hp | hp
  · obtain ⟨q, hq, rfl⟩ := List.mem_map.1 hp
    exact fitsIn_range hwidth rfl hq
  · obtain ⟨r, hr, hp⟩ := List.mem_flatten.1 hp
    rw [List.eq_of_mem_replicate hr] at hp
    exact fitsIn_round hwidth hfits marked p hp

end

theorem circuit_of_lt {n : ℕ} (hn : 0 < n) (hword : n < 64) {marked : List ℕ} (hne : marked ≠ [])
    (hmarked : ∀ m ∈ marked, m < 2 ^ n) {flip : List (Placement ℝ)}
    (hplaced : phaseFlip (List.range n) (List.range' n (workQubits n)) = .ok flip)
    (hfits : ∀ p ∈ flip, p.FitsIn (n + workQubits n)) (k : ℕ) :
    circuit n marked k = .ok ((Circuit.blank (n + workQubits n) n).appendGates
      ((gates flip n marked k).map made)).measureAll := by
  have hfind : marked.find? (fun m => Qubit.dimension n ≤ m) = none := by
    rw [List.find?_eq_none, dimension_eq hword]
    exact fun m hm => by simpa using hmarked m hm
  have hbuild := Circuit.build_of_fitsIn n
    (fitsIn_gates (Nat.le_add_right n _) hfits marked k)
  rw [gates] at hbuild
  rw [circuit, if_neg hn.ne', if_neg (by simpa using hne), if_neg (by omega), hfind]
  show (phaseFlip (List.range n) (List.range' n (workQubits n)) >>= fun flip => _) = _
  rw [hplaced]
  show (Circuit.build _ _ _ >>= fun c => _) = _
  rw [← round, hbuild]
  rfl

theorem circuit_of_le {n : ℕ} (hword : 64 ≤ n) {marked : List ℕ} (hne : marked ≠ []) (k : ℕ) :
    (circuit n marked k : Except (TaskError ℝ) (Circuit ℝ)) = .error (.searchTooWide n) := by
  rw [circuit, if_neg (by omega), if_neg (by simpa using hne), if_pos hword]

/-- The marked states of a state in the plane weigh as many times the square of their amplitude. -/
theorem sum_probability {n : ℕ} {marked : List ℕ} (hmarked : ∀ m ∈ marked, m < 2 ^ n)
    {s : StateVector ℝ} {a b : ℝ} (hs : wave s.amplitudes = twoLevel n marked a b) :
    (marked.map s.probability).sum = marked.length * a ^ 2 := by
  have hsame : marked.map s.probability = marked.map fun _ => a ^ 2 := by
    refine List.map_congr_left fun m hm => ?_
    rw [probability_eq, hs, twoLevel, if_pos (hmarked m hm), if_pos hm, Complex.normSq_ofReal, sq]
  rw [hsame, List.map_const', List.sum_replicate, nsmul_eq_mul]

/-- **The success law of the search.** The gates of a search leave the work qubits clear and give
all marked states one amplitude and all others another; the weight of the marked states is the
squared sine of an odd multiple of the angle whose squared sine is their share. A register beyond
the word size has no circuit; any other has one, and this is the state it is simulated to. -/
theorem circuit_amplifies {n : ℕ} (hn : 0 < n) {marked : List ℕ} (hne : marked ≠ [])
    (hnodup : marked.Nodup) (hmarked : ∀ m ∈ marked, m < 2 ^ n) (k : ℕ) :
    ∃ flip : List (Placement ℝ), ∃ a b : ℝ,
      phaseFlip (List.range n) (List.range' n (workQubits n)) = .ok flip ∧
      effect (gates flip n marked k) startWave = twoLevel n marked a b ∧
      (∀ θ, Real.sin θ ^ 2 = marked.length / 2 ^ n →
        marked.length * a ^ 2 = Real.sin ((2 * k + 1) * θ) ^ 2) ∧
      (64 ≤ n → (circuit n marked k : Except (TaskError ℝ) (Circuit ℝ)) =
        .error (.searchTooWide n)) ∧
      (n < 64 → ∃ c : Circuit ℝ, circuit n marked k = .ok c ∧ c.width = n + workQubits n ∧
        c.gates = (gates flip n marked k).map made ∧
        ∀ limit, c.width < 64 ∨ limit < 64 → c.simulated limit = true →
          ∃ s, c.state limit = .ok s ∧ wave s.amplitudes = twoLevel n marked a b ∧
            ∀ θ, Real.sin θ ^ 2 = marked.length / 2 ^ n →
              (marked.map s.probability).sum = Real.sin ((2 * k + 1) * θ) ^ 2) := by
  obtain ⟨flip, F, hplaced, hfits, hflip⟩ := exists_flipsOnes hn
  obtain ⟨a, b, hwave, hangle⟩ := effect_gates hnodup hmarked hflip k
  -- the weight of the marked states, by their number and their common amplitude
  have hlaw : ∀ θ, Real.sin θ ^ 2 = marked.length / 2 ^ n →
      marked.length * a ^ 2 = Real.sin ((2 * k + 1) * θ) ^ 2 := fun θ hθ => by
    have hroot : (Real.sqrt 2 ^ n) ^ 2 = 2 ^ n := by
      rw [← pow_mul, mul_comm, pow_mul, Real.sq_sqrt two_pos.le]
    have hlength : (marked.length : ℝ) = 2 ^ n * Real.sin θ ^ 2 := by
      rw [hθ]
      field_simp
    calc (marked.length : ℝ) * a ^ 2 = (Real.sqrt 2 ^ n * Real.sin θ * a) ^ 2 := by
          rw [hlength, mul_pow, mul_pow, hroot]
      _ = Real.sin ((2 * k + 1) * θ) ^ 2 := by
          rw [(hangle θ hθ).1, mul_pow, ← pow_mul, mul_comm k, pow_mul, neg_one_sq, one_pow,
            one_mul]
  refine ⟨flip, a, b, hplaced, hwave, hlaw, fun hword => circuit_of_le hword hne k, fun hword =>
    ⟨_, circuit_of_lt hn hword hne hmarked hplaced hfits k, rfl, rfl, fun limit hlimit hsim => ?_⟩⟩
  have hbuilt : ((Circuit.blank (n + workQubits n) n).appendGates
      ((gates flip n marked k).map made)).measureAll.Built :=
    Circuit.builtIn_map_made (fitsIn_gates (Nat.le_add_right n _) hfits marked k)
  obtain ⟨amplitudes, hstate, -, hamplitudes⟩ :=
    Circuit.state_of_built hbuilt (Circuit.width_lt_of_simulated hlimit hsim) hsim
  have hs := hamplitudes.trans hwave
  exact ⟨_, hstate, hs, fun θ hθ => (sum_probability hmarked hs).trans (hlaw θ hθ)⟩

/-- With two of eight states marked one round is certain to find one of them. -/
theorem circuit_amplifies_two_of_eight :
    (0 < 3 ∧ [5, 2] ≠ [] ∧ [5, 2].Nodup ∧ ∀ m ∈ [5, 2], m < 2 ^ 3) ∧
    ∃ c : Circuit ℝ, circuit 3 [5, 2] 1 = .ok c ∧
      ∃ s, c.state 30 = .ok s ∧ s.probability 5 + s.probability 2 = 1 := by
  have hmarked : ∀ m ∈ [5, 2], m < 2 ^ 3 := by decide
  obtain ⟨flip, a, b, -, -, -, -, hcircuit⟩ :=
    circuit_amplifies (n := 3) (by decide) (List.cons_ne_nil 5 [2]) (by decide) hmarked 1
  obtain ⟨c, hc, hwidth, -, hstate⟩ := hcircuit (by decide)
  have hsim : c.simulated 30 = true := by
    rw [Circuit.simulated, hwidth]
    rfl
  obtain ⟨s, hs, -, hprobability⟩ := hstate 30 (Or.inr (by decide)) hsim
  have hangle : Real.sin (Real.pi / 6) ^ 2 = ([5, 2] : List ℕ).length / 2 ^ 3 := by
    rw [Real.sin_pi_div_six]
    norm_num
  have hsum := hprobability _ hangle
  have hquarter : (2 * ((1 : ℕ) : ℝ) + 1) * (Real.pi / 6) = Real.pi / 2 := by
    push_cast
    ring
  rw [hquarter, Real.sin_pi_div_two] at hsum
  exact ⟨⟨by decide, List.cons_ne_nil 5 [2], by decide, hmarked⟩, c, hc, s, hs, by simpa using hsum⟩

end QuantumWorkbench.Amplification
