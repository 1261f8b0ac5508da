import Mathlib
import QuantumWorkbench.Algorithm.Feature
import QuantumWorkbench.Proofs.Circuit.Placement
import QuantumWorkbench.Proofs.Simulation

/-!
# The distribution of loaded features

Every encoding puts at most one gate on each qubit, so the gates of an encoding are a layer, and the
qubits of the state that it prepares are independent of each other. A qubit shows a one with a
chance that only its feature decides, and for shares of a vector of length one also the length of
the vector.
-/

namespace QuantumWorkbench.FeatureEncoding

open Gate Placement Register

/-! ## Chances -/

/-- The length of a vector of features. -/
noncomputable def vectorNorm (features : List ℝ) : ℝ :=
  Real.sqrt (features.map fun x => x ^ 2).sum

/-- The chance that the qubit `q` shows a one. -/
noncomputable def chance (encoding : FeatureEncoding) (features : List ℝ) (q : ℕ) : ℝ :=
  match encoding with
  | angle => Real.sin (Real.pi * features.getD q 0 / 2) ^ 2
  | amplitude => (features.getD q 0 / vectorNorm features) ^ 2
  | basis => if 1 / 2 < features.getD q 0 then 1 else 0

/-- The distribution of the indices of a register of `n` qubits that show their bits independently
of each other, the qubit `q` a one with the chance `p q`. -/
noncomputable def independent (p : ℕ → ℝ) (n b : ℕ) : ℝ :=
  if b < 2 ^ n then ∏ q ∈ Finset.range n, if b.testBit q then p q else 1 - p q else 0

/-! ## Lengths of vectors -/

section

variable (features : List ℝ)

theorem sq_le_sum {x : ℝ} (hx : x ∈ features) : x ^ 2 ≤ (features.map fun x => x ^ 2).sum :=
  List.single_le_sum (by simpa using fun y _ => sq_nonneg y) _ (List.mem_map_of_mem hx)

theorem sum_sq_nonneg : 0 ≤ (features.map fun x => x ^ 2).sum :=
  List.sum_nonneg (by simpa using fun y _ => sq_nonneg y)

theorem vectorNorm_eq_zero_iff : vectorNorm features = 0 ↔ ∀ x ∈ features, x = 0 := by
  rw [vectorNorm, Real.sqrt_eq_zero (sum_sq_nonneg features)]
  refine ⟨fun h x hx => ?_, fun h => ?_⟩
  · have hle := sq_le_sum features hx
    exact (pow_eq_zero_iff two_ne_zero).1 (le_antisymm (h ▸ hle) (sq_nonneg x))
  · refine List.sum_eq_zero fun y hy => ?_
    obtain ⟨x, hx, rfl⟩ := List.mem_map.1 hy
    rw [h x hx, zero_pow two_ne_zero]

/-- No feature is longer than the vector, so its share has an angle. -/
theorem abs_share_le_one (q : ℕ) : |features.getD q 0 / vectorNorm features| ≤ 1 := by
  have hle : |features.getD q 0| ≤ vectorNorm features := by
    refine Real.abs_le_sqrt ?_
    -- a qubit beyond the features has the share zero
    by_cases hq : q < features.length
    · rw [List.getD_eq_getElem _ _ hq]
      exact sq_le_sum features (List.getElem_mem hq)
    · rw [List.getD_eq_default _ _ (Nat.le_of_not_lt hq), zero_pow two_ne_zero]
      exact sum_sq_nonneg features
  rw [abs_div, abs_of_nonneg (show 0 ≤ vectorNorm features from Real.sqrt_nonneg _)]
  exact div_le_one_of_le₀ hle (Real.sqrt_nonneg _)

end

/-! ## Gates of one qubit -/

/-- A one-qubit matrix that turns zero into a state which shows a one with the chance `p`. -/
structure Prepares (A : Matrix (Fin 2) (Fin 2) ℂ) (p : ℝ) : Prop where
  zero : Complex.normSq (A 0 0) = 1 - p
  one : Complex.normSq (A 1 0) = p

theorem prepares_identity : Prepares 1 0 := ⟨by simp, by simp⟩

theorem prepares_negation : Prepares Axis.x.pauli 1 := ⟨by simp [Axis.pauli], by simp [Axis.pauli]⟩

/-- The turn about the second axis halves its angle. -/
theorem prepares_turn (angle : ℝ) : Prepares (Axis.y.turn angle) (Real.sin (angle / 2) ^ 2) where
  zero := by
    have hentry : Axis.y.turn angle 0 0 = (Real.cos (angle / 2) : ℝ) := by
      simp [Axis.turn_eq, Axis.pauli]
    rw [hentry, Complex.normSq_ofReal, ← sq, Real.cos_sq']
  one := by
    have hentry : Axis.y.turn angle 1 0 = (Real.sin (angle / 2) : ℝ) := by
      simp [Axis.turn_eq, Axis.pauli, mul_assoc]
    rw [hentry, Complex.normSq_ofReal, ← sq]

/-- The gates that load the feature of the qubit `q`. -/
noncomputable def loading (encoding : FeatureEncoding) (features : List ℝ) (q : ℕ) :
    List (Placement ℝ) :=
  match encoding with
  | angle => [.turn .ry q (Real.pi * features.getD q 0)]
  | amplitude => [.turn .ry q (2 * Real.arcsin |features.getD q 0 / vectorNorm features|)]
  | basis => if 1 / 2 < features.getD q 0 then [.of .x [q]] else []

/-- **The gates of one qubit** act on that qubit alone and prepare the chance of its feature. -/
theorem exists_prepares (encoding : FeatureEncoding) (features : List ℝ) (q : ℕ) :
    ∃ A : Matrix (Fin 2) (Fin 2) ℂ, effect (encoding.loading features q) = applyAt [q] A ∧
      Prepares A (encoding.chance features q) := by
  cases encoding with
  | angle => exact ⟨_, effect_turn rfl rfl q _, prepares_turn _⟩
  | amplitude =>
    have hshare := abs_share_le_one features q
    have hsin : Real.sin (2 * Real.arcsin |features.getD q 0 / vectorNorm features| / 2) ^ 2 =
        (features.getD q 0 / vectorNorm features) ^ 2 := by
      rw [mul_div_cancel_left₀ _ two_ne_zero,
        Real.sin_arcsin (neg_one_lt_zero.le.trans (abs_nonneg _)) hshare, sq_abs]
    refine ⟨_, effect_turn rfl rfl q _, ?_⟩
    rw [chance, ← hsin]
    exact prepares_turn _
  | basis =>
    by_cases h : 1 / 2 < features.getD q 0
    · rw [loading, chance, if_pos h, if_pos h]
      exact ⟨_, (effect_of .x [q]).trans (operator_x_eq q), prepares_negation⟩
    · rw [loading, chance, if_neg h, if_neg h]
      exact ⟨1, (applyAt_one [q]).symm, prepares_identity⟩

theorem fitsIn_loading {encoding : FeatureEncoding} {features : List ℝ} {q n : ℕ} (hq : q < n) :
    ∀ p ∈ encoding.loading features q, p.FitsIn n := by
  intro p hp
  cases encoding with
  | angle =>
    obtain rfl := List.mem_singleton.1 hp
    exact fitsIn_turn rfl hq _
  | amplitude =>
    obtain rfl := List.mem_singleton.1 hp
    exact fitsIn_turn rfl hq _
  | basis =>
    rw [loading] at hp
    split at hp
    · obtain rfl := List.mem_singleton.1 hp
      exact fitsIn_one rfl hq
    · cases hp

/-! ## The gates of an encoding -/

/-- All gates of an encoding, qubit by qubit. -/
noncomputable def loadings (encoding : FeatureEncoding) (features : List ℝ) :
    List (Placement ℝ) :=
  (List.range features.length).flatMap (encoding.loading features)

theorem fitsIn_loadings (encoding : FeatureEncoding) (features : List ℝ) :
    ∀ p ∈ encoding.loadings features, p.FitsIn features.length := by
  intro p hp
  obtain ⟨q, hq, hp⟩ := List.mem_flatMap.1 hp
  exact fitsIn_loading (List.mem_range.1 hq) p hp

theorem map_filter_eq_flatMap {β γ : Type} (keep : β → Bool) (f : β → γ) (bs : List β) :
    (bs.filter keep).map f = bs.flatMap fun b => if keep b then [f b] else [] := by
  induction bs with
  | nil => rfl
  | cons b bs ih =>
    rw [List.flatMap_cons, ← ih, List.filter_cons]
    split <;> rfl

section

variable (features : List ℝ)

/-- Over the real numbers no feature is refused. -/
theorem find?_not_isFinite : features.find? (fun x => !Scalar.isFinite x) = none :=
  List.find?_eq_none.2 fun _ _ => Bool.false_ne_true

theorem zipIdx_eq_map : features.zipIdx =
    (List.range features.length).map fun q => (features.getD q 0, q) := by
  simpa using Scalar.zipIdx_take_eq_map 0 features.length features

theorem map_zipIdx_eq_flatMap {γ : Type} (f : ℝ × ℕ → γ) : features.zipIdx.map f =
    (List.range features.length).flatMap fun q => [f (features.getD q 0, q)] := by
  rw [zipIdx_eq_map, List.map_map, List.map_eq_flatMap]
  rfl

theorem placements_angle : angle.placements features = .ok (angle.loadings features) := by
  simp only [placements, find?_not_isFinite, map_zipIdx_eq_flatMap]
  rfl

theorem placements_basis : basis.placements features = .ok (basis.loadings features) := by
  simp only [placements, find?_not_isFinite, map_filter_eq_flatMap, zipIdx_eq_map, List.flatMap_map,
    decide_eq_true_eq, threshold, Scalar.two_real]
  rfl

/-- Only a vector of zeros is refused: its length would be divided by. -/
theorem placements_amplitude [Decidable (∀ x ∈ features, x = 0)] :
    amplitude.placements features = if ∀ x ∈ features, x = 0 then .error .zeroFeatures
      else .ok (amplitude.loadings features) := by
  have hnorm : Scalar.sqrt (Scalar.sum (features.map fun x => x * x)) = vectorNorm features := by
    simp only [Scalar.sum_real, ← sq]
    rfl
  simp only [placements, find?_not_isFinite, hnorm, beq_iff_eq, vectorNorm_eq_zero_iff,
    map_zipIdx_eq_flatMap, Scalar.two_real]
  rfl

end

/-- **The distribution of an encoding.** -/
theorem normSq_loadings (encoding : FeatureEncoding) (features : List ℝ) (b : ℕ) :
    Complex.normSq (effect (encoding.loadings features) startWave b) =
      independent (encoding.chance features) features.length b := by
  choose A hA hprepares using fun q => encoding.exists_prepares features q
  -- the gates of different qubits make up a layer, whose amplitudes are products
  have hlayer : effect (encoding.loadings features) =
      layer id A (List.range features.length) := effect_flatMap_eq_layer hA _
  rw [hlayer, startWave, layer_range_single A (Nat.two_pow_pos _), independent]
  by_cases hb : b < 2 ^ features.length
  · rw [if_pos hb, if_pos hb, Register.weight, map_prod]
    refine Finset.prod_congr rfl fun q _ => ?_
    cases hbit : b.testBit q
    · exact (congrArg _ (by simp [place])).trans (hprepares q).zero
    · exact (congrArg _ (by simp [place])).trans (hprepares q).one
  · rw [if_neg hb, if_neg hb, Complex.normSq_zero]

/-! ## The circuits -/

/-- The circuit of an encoding, with its gates. -/
noncomputable def loaded (encoding : FeatureEncoding) (features : List ℝ) : Circuit ℝ :=
  (Circuit.blank features.length features.length).appendGates
    ((encoding.loadings features).map made)

theorem circuit_of_placements {encoding : FeatureEncoding} {features : List ℝ}
    (hne : features ≠ []) (h : encoding.placements features = .ok (encoding.loadings features)) :
    encoding.circuit features = .ok (encoding.loaded features) := by
  rw [circuit, if_neg (by simpa using hne), h]
  exact Circuit.build_of_fitsIn _ (fitsIn_loadings encoding features)

/-- Only for shares of a vector of zeros there is no circuit. -/
theorem circuit_eq (encoding : FeatureEncoding) {features : List ℝ} (hne : features ≠ [])
    [Decidable (∀ x ∈ features, x = 0)] :
    encoding.circuit features =
      if encoding = amplitude ∧ ∀ x ∈ features, x = 0 then .error .zeroFeatures
      else .ok (encoding.loaded features) := by
  cases encoding with
  | angle => exact circuit_of_placements hne (placements_angle features)
  | basis => exact circuit_of_placements hne (placements_basis features)
  | amplitude =>
    have hplacements := placements_amplitude features
    by_cases hzero : ∀ x ∈ features, x = 0
    · rw [if_pos hzero] at hplacements
      rw [if_pos ⟨rfl, hzero⟩, circuit, if_neg (by simpa using hne), hplacements]
      rfl
    · rw [if_neg hzero] at hplacements
      rw [if_neg fun h => hzero h.2]
      exact circuit_of_placements hne hplacements

/-- **An encoding prepares a product distribution.** Shares of a vector of zeros are refused. Any
other features, at least one, have a circuit with a qubit for each of them, whose gates take the
start to a wave in which the qubits show their bits independently of each other, each a one with the
chance of its feature; and this is the distribution of the state that the circuit is simulated
to. -/
theorem circuit_prepares (encoding : FeatureEncoding) {features : List ℝ} (hne : features ≠ []) :
    (encoding = amplitude → (∀ x ∈ features, x = 0) →
      encoding.circuit features = .error .zeroFeatures) ∧
    ((encoding = amplitude → ∃ x ∈ features, x ≠ 0) →
      ∃ c, encoding.circuit features = .ok c ∧ c.width = features.length ∧
        (∀ b, Complex.normSq (operatorAll c.gates startWave b) =
          independent (encoding.chance features) features.length b) ∧
        ∀ limit, c.width < 64 ∨ limit < 64 → c.simulated limit = true →
          ∃ s, c.state limit = .ok s ∧
            ∀ b, s.probability b =
              independent (encoding.chance features) features.length b) := by
  classical
  rw [circuit_eq encoding hne]
  refine ⟨fun hencoding hzero => if_pos ⟨hencoding, hzero⟩, fun hloads =>
    ⟨encoding.loaded features, if_neg ?_, rfl, normSq_loadings encoding features,
      fun limit hlimit hsim => ?_⟩⟩
  · rintro ⟨hencoding, hzero⟩
    obtain ⟨x, hx, hxne⟩ := hloads hencoding
    exact hxne (hzero x hx)
  · have hbuilt : (encoding.loaded features).Built :=
      Circuit.builtIn_map_made (fitsIn_loadings encoding features)
    obtain ⟨amplitudes, hstate, -, hwave⟩ :=
      Circuit.state_of_built hbuilt (Circuit.width_lt_of_simulated hlimit hsim) hsim
    refine ⟨_, hstate, fun b => ?_⟩
    rw [probability_eq]
    exact (congrArg (fun ψ : Wave => Complex.normSq (ψ b)) hwave).trans
      (normSq_loadings encoding features b)

/-- Two features in the ratio of three to four: the first qubit shows a one with a chance of nine in
twenty-five, the second with sixteen, and a vector of zeros is refused. -/
theorem circuit_prepares_threeToFour : [(3 : ℝ), -4] ≠ [] ∧ [(0 : ℝ), 0] ≠ [] ∧
    (∃ c : Circuit ℝ, amplitude.circuit [3, -4] = .ok c ∧ ∃ s, c.state 30 = .ok s ∧
      s.probability 0 = 16 / 25 * (9 / 25) ∧ s.probability 1 = 9 / 25 * (9 / 25) ∧
      s.probability 2 = 16 / 25 * (16 / 25) ∧ s.probability 4 = 0) ∧
    amplitude.circuit [(0 : ℝ), 0] = .error .zeroFeatures := by
  have hne : [(3 : ℝ), -4] ≠ [] := List.cons_ne_nil _ _
  have hne' : [(0 : ℝ), 0] ≠ [] := List.cons_ne_nil _ _
  obtain ⟨c, hc, hwidth, -, hstate⟩ := (circuit_prepares amplitude hne).2 fun _ =>
    ⟨3, by simp, by norm_num⟩
  have hsim : c.simulated 30 = true := by
    rw [Circuit.simulated, hwidth]
    rfl
  obtain ⟨s, hs, hprobability⟩ := hstate 30 (Or.inr (by decide)) hsim
  have hnorm : vectorNorm [3, -4] = 5 := by
    rw [vectorNorm, Real.sqrt_eq_iff_mul_self_eq_of_pos (by norm_num)]
    norm_num
  have hfirst : amplitude.chance [3, -4] 0 = 9 / 25 := by
    rw [chance, hnorm]
    norm_num
  have hsecond : amplitude.chance [3, -4] 1 = 16 / 25 := by
    rw [chance, hnorm]
    norm_num
  refine ⟨hne, hne', ⟨c, hc, s, hs, ?_, ?_, ?_, ?_⟩,
    (circuit_prepares amplitude hne').1 rfl (by simp)⟩
  all_goals
    rw [hprobability, independent]
    norm_num [Finset.prod_range_succ, hfirst, hsecond, Nat.testBit, Nat.shiftRight_eq_div_pow]

end QuantumWorkbench.FeatureEncoding
