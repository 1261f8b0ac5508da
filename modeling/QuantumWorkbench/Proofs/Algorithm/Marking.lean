import Mathlib
import QuantumWorkbench.Proofs.Algorithm.Amplification

/-!
# What a search marks

A search is told its marked states by a list, and each entry is a sign of its own. So a state that
is listed twice is not marked at all: the final state depends on the lists only through the parity
of the number of times that each state is listed.
-/

namespace QuantumWorkbench.Amplification

open Gate Placement Register

/-! ## Marks -/

/-- Two lists mark the same states: each state is listed an odd number of times in both, or in
neither. -/
def SameMarks (marked marked' : List ℕ) : Prop :=
  ∀ m, marked.count m % 2 = marked'.count m % 2

/-- Lists without repetitions mark what they list. -/
theorem sameMarks_of_nodup {marked marked' : List ℕ} (h : marked.Nodup) (h' : marked'.Nodup)
    (hsame : ∀ m, m ∈ marked ↔ m ∈ marked') : SameMarks marked marked' := fun m => by
  rw [h.count, h'.count]
  simp only [hsame]

/-- The sign of a state after the oracles of a list. -/
def mark (marked : List ℕ) (x : ℕ) : ℂ := (-1) ^ marked.count x

theorem mark_eq_iff {marked marked' : List ℕ} {x : ℕ} :
    mark marked x = mark marked' x ↔ marked.count x % 2 = marked'.count x % 2 := by
  have hne : (-1 : ℂ) ≠ 1 := by norm_num
  rw [mark, mark, neg_one_pow_eq_pow_mod_two, neg_one_pow_eq_pow_mod_two (marked'.count x)]
  rcases Nat.mod_two_eq_zero_or_one (marked.count x) with h | h <;>
    rcases Nat.mod_two_eq_zero_or_one (marked'.count x) with h' | h' <;>
    simp [h, h', hne, hne.symm]

/-! ## Rounds on any wave of the register -/

/-- Nothing of a wave lies beyond a register. -/
def OnRegister (n : ℕ) (ψ : Wave) : Prop := ∀ x, 2 ^ n ≤ x → ψ x = 0

theorem OnRegister.mark {n : ℕ} {ψ : Wave} (hψ : OnRegister n ψ) (marked : List ℕ) :
    OnRegister n fun x => Amplification.mark marked x * ψ x := fun x hx =>
  (congrArg _ (hψ x hx)).trans (mul_zero _)

section

variable {n : ℕ} {flip : List (Placement ℝ)} {F : ℕ → ℂ} (hflip : FlipsOnes n flip F)
  {marked marked' : List ℕ} (hmarked : ∀ m ∈ marked, m < 2 ^ n) (hmarked' : ∀ m ∈ marked', m < 2 ^ n)
include hflip hmarked

/-- The oracles of a list give every state its sign. -/
theorem effect_marks {ψ : Wave} (hψ : OnRegister n ψ) :
    effect (marked.flatMap (oracle flip (List.range n))) ψ = fun x => mark marked x * ψ x := by
  obtain ⟨G, hG, hsign⟩ := effect_oracles hflip hmarked
  funext x
  rw [hG, phases_apply]
  by_cases hx : x < 2 ^ n
  · rw [hsign x hx, mark]
  · rw [hψ x (Nat.le_of_not_lt hx), mul_zero, mul_zero]

/-- **A round** gives every state its sign and subtracts twice the mean. -/
theorem effect_round_apply {ψ : Wave} (hψ : OnRegister n ψ) (x : ℕ) :
    effect (round flip n marked) ψ x = if x < 2 ^ n then
      mark marked x * ψ x - 2 / 2 ^ n * ∑ c ∈ Finset.range (2 ^ n), mark marked c * ψ c else 0 := by
  rw [round, effect_append, LinearMap.comp_apply, effect_marks hflip hmarked hψ,
    effect_diffusion hflip (hψ.mark marked)]

theorem onRegister_round {ψ : Wave} (hψ : OnRegister n ψ) :
    OnRegister n (effect (round flip n marked) ψ) := fun x hx => by
  rw [effect_round_apply hflip hmarked hψ, if_neg (Nat.not_lt.2 hx)]

/-- A round on a wave with equal amplitudes, where no state has a sign, turns the wave over. -/
theorem effect_round_unmarked {a : ℝ} (heven : ∀ m, marked.count m % 2 = 0) :
    effect (round flip n marked) (twoLevel n [] a a) = twoLevel n [] (-a) (-a) := by
  have hmark : ∀ x, mark marked x = 1 := fun x => by
    rw [mark, neg_one_pow_eq_pow_mod_two, heven, pow_zero]
  have hpow : ((2 : ℂ) ^ n) ≠ 0 := pow_ne_zero n two_ne_zero
  funext x
  rw [effect_round_apply hflip hmarked fun y hy => twoLevel_of_le hy]
  simp only [hmark, one_mul, twoLevel, ite_self]
  by_cases hx : x < 2 ^ n
  · have hsum : ∑ c ∈ Finset.range (2 ^ n), (if c < 2 ^ n then (a : ℂ) else 0) = 2 ^ n * a := by
      rw [Finset.sum_congr rfl fun c hc => if_pos (Finset.mem_range.1 hc), Finset.sum_const,
        Finset.card_range, nsmul_eq_mul]
      push_cast
      rfl
    simp only [if_pos hx]
    rw [hsum, ← mul_assoc, div_mul_cancel₀ _ hpow]
    push_cast
    ring
  · rw [if_neg hx, if_neg hx]

include hmarked'

/-- **Where a wave has no zero a round tells any two markings apart**: the mean can be read off the
new amplitudes, and then every sign. -/
theorem effect_round_eq_iff {ψ : Wave} (hψ : OnRegister n ψ) (hne : ∀ x < 2 ^ n, ψ x ≠ 0) :
    effect (round flip n marked) ψ = effect (round flip n marked') ψ ↔
      SameMarks marked marked' := by
  have hpow : ((2 : ℂ) ^ n) ≠ 0 := pow_ne_zero n two_ne_zero
  constructor
  · intro h
    have hround : ∀ x ∈ Finset.range (2 ^ n),
        mark marked x * ψ x - 2 / 2 ^ n * ∑ c ∈ Finset.range (2 ^ n), mark marked c * ψ c =
        mark marked' x * ψ x - 2 / 2 ^ n * ∑ c ∈ Finset.range (2 ^ n), mark marked' c * ψ c := by
      intro x hx
      have hat := congrFun h x
      rwa [effect_round_apply hflip hmarked hψ, effect_round_apply hflip hmarked' hψ,
        if_pos (Finset.mem_range.1 hx), if_pos (Finset.mem_range.1 hx)] at hat
    -- summed over the register, the new amplitudes give the negated sum of the signed ones
    have hsums := Finset.sum_congr rfl hround
    rw [Finset.sum_sub_distrib, Finset.sum_sub_distrib, Finset.sum_const, Finset.sum_const,
      Finset.card_range, nsmul_eq_mul, nsmul_eq_mul] at hsums
    push_cast at hsums
    rw [← mul_assoc, ← mul_assoc, mul_div_cancel₀ _ hpow] at hsums
    have hmean : ∑ c ∈ Finset.range (2 ^ n), mark marked c * ψ c =
        ∑ c ∈ Finset.range (2 ^ n), mark marked' c * ψ c := by
      linear_combination -hsums
    intro m
    by_cases hm : m < 2 ^ n
    · have hat := hround m (Finset.mem_range.2 hm)
      rw [hmean, sub_left_inj] at hat
      exact mark_eq_iff.1 (mul_right_cancel₀ (hne m hm) hat)
    · rw [List.count_eq_zero_of_not_mem fun h => hm (hmarked m h),
        List.count_eq_zero_of_not_mem fun h => hm (hmarked' m h)]
  · intro hsame
    have hmark : ∀ x, mark marked x = mark marked' x := fun x => mark_eq_iff.2 (hsame x)
    funext x
    rw [effect_round_apply hflip hmarked hψ, effect_round_apply hflip hmarked' hψ]
    simp only [hmark]

end

/-! ## Runs -/

/-- The amplitude that all states of a register start with. -/
noncomputable def startAmplitude (n : ℕ) : ℝ := (Scalar.invSqrtTwo : ℝ) ^ n

theorem startAmplitude_pos (n : ℕ) : 0 < startAmplitude n :=
  pow_pos (by rw [Scalar.invSqrtTwo_real]; positivity) n

theorem effect_gates_zero (flip : List (Placement ℝ)) (n : ℕ) (marked : List ℕ) :
    effect (gates flip n marked 0) startWave =
      twoLevel n [] (startAmplitude n) (startAmplitude n) := by
  rw [gates, List.replicate_zero, List.flatten_nil, List.append_nil, effect_opening n []]
  rfl

theorem effect_gates_succ (flip : List (Placement ℝ)) (n : ℕ) (marked : List ℕ) (k : ℕ) :
    effect (gates flip n marked (k + 1)) startWave =
      effect (round flip n marked) (effect (gates flip n marked k) startWave) := by
  rw [gates_succ, effect_append, LinearMap.comp_apply]

section

variable {n : ℕ} {flip : List (Placement ℝ)} {F : ℕ → ℂ} (hflip : FlipsOnes n flip F)
  {marked marked' : List ℕ} (hmarked : ∀ m ∈ marked, m < 2 ^ n)
include hflip hmarked

theorem onRegister_gates (k : ℕ) : OnRegister n (effect (gates flip n marked k) startWave) := by
  induction k with
  | zero =>
    rw [effect_gates_zero]
    exact fun x hx => twoLevel_of_le hx
  | succ k ih =>
    rw [effect_gates_succ]
    exact onRegister_round hflip hmarked ih

/-- **Searches with the same marks end alike**, after any number of rounds. -/
theorem effect_gates_congr (hmarked' : ∀ m ∈ marked', m < 2 ^ n) (hsame : SameMarks marked marked')
    (k : ℕ) : effect (gates flip n marked k) startWave =
      effect (gates flip n marked' k) startWave := by
  induction k with
  | zero => rw [effect_gates_zero, effect_gates_zero]
  | succ k ih =>
    have hmark : ∀ x, mark marked x = mark marked' x := fun x => mark_eq_iff.2 (hsame x)
    have hon := onRegister_gates hflip hmarked k
    rw [effect_gates_succ, effect_gates_succ, ← ih]
    funext x
    rw [effect_round_apply hflip hmarked hon, effect_round_apply hflip hmarked' hon]
    simp only [hmark]

/-- After one round the marks can be told from the state. -/
theorem effect_gates_one_eq_iff (hmarked' : ∀ m ∈ marked', m < 2 ^ n) :
    effect (gates flip n marked 1) startWave = effect (gates flip n marked' 1) startWave ↔
      SameMarks marked marked' := by
  rw [effect_gates_succ, effect_gates_succ, effect_gates_zero, effect_gates_zero]
  refine effect_round_eq_iff hflip hmarked hmarked' (fun x hx => twoLevel_of_le hx) fun x hx => ?_
  rw [twoLevel, if_pos hx, ite_self]
  exact Complex.ofReal_ne_zero.2 (startAmplitude_pos n).ne'

/-- **A search without a mark finds nothing**: all states keep one amplitude. -/
theorem effect_gates_unmarked (heven : ∀ m, marked.count m % 2 = 0) (k : ℕ) :
    effect (gates flip n marked k) startWave =
      twoLevel n [] ((-1) ^ k * startAmplitude n) ((-1) ^ k * startAmplitude n) := by
  induction k with
  | zero => rw [effect_gates_zero, pow_zero, one_mul]
  | succ k ih =>
    rw [effect_gates_succ, ih, effect_round_unmarked hflip hmarked heven, pow_succ]
    simp

end

/-! ## Circuits -/

/-- A search within the word size has a circuit, and its gates act as the rounds do. -/
theorem exists_circuit {n : ℕ} (hn : 0 < n) (hword : n < 64) {marked : List ℕ} (hne : marked ≠ [])
    (hmarked : ∀ m ∈ marked, m < 2 ^ n) {flip : List (Placement ℝ)}
    (hplaced : phaseFlip (List.range n) (List.range' n (workQubits n)) = .ok flip)
    (hfits : ∀ p ∈ flip, p.FitsIn (n + workQubits n)) (k : ℕ) :
    ∃ c : Circuit ℝ, circuit n marked k = .ok c ∧ c.Built ∧ c.width = n + workQubits n ∧
      operatorAll c.gates = effect (gates flip n marked k) :=
  ⟨_, circuit_of_lt hn hword hne hmarked hplaced hfits k,
    Circuit.builtIn_map_made (fitsIn_gates (Nat.le_add_right n _) hfits marked k), rfl, rfl⟩

/-- **What the final state of a search depends on.** Of two lists of states of the register, beyond
the word size neither has a circuit; within it both have one, and where every state is listed with
the same parity in both, the circuits end in one state after any number of rounds. One round is
enough to tell any other two lists apart. A list in which no state is listed an odd number of times
marks nothing: all states of the register keep the amplitude that they start with, up to a sign. -/
theorem circuit_marks {n : ℕ} (hn : 0 < n) {marked marked' : List ℕ} (hne : marked ≠ [])
    (hne' : marked' ≠ []) (hmarked : ∀ m ∈ marked, m < 2 ^ n)
    (hmarked' : ∀ m ∈ marked', m < 2 ^ n) (k : ℕ) :
    (64 ≤ n → (circuit n marked k : Except (TaskError ℝ) (Circuit ℝ)) =
        .error (.searchTooWide n) ∧
      (circuit n marked' k : Except (TaskError ℝ) (Circuit ℝ)) = .error (.searchTooWide n)) ∧
    (n < 64 → ∃ c c' : Circuit ℝ, circuit n marked k = .ok c ∧ circuit n marked' k = .ok c' ∧
      c.width = n + workQubits n ∧
      (SameMarks marked marked' →
        operatorAll c'.gates startWave = operatorAll c.gates startWave ∧
        ∀ limit, c.width < 64 ∨ limit < 64 → c'.state limit = c.state limit) ∧
      (k = 1 →
        (operatorAll c'.gates startWave = operatorAll c.gates startWave ↔
          SameMarks marked marked') ∧
        ∀ limit, c.width < 64 ∨ limit < 64 → c.simulated limit = true →
          (c'.state limit = c.state limit ↔ SameMarks marked marked')) ∧
      ((∀ m, marked.count m % 2 = 0) → ∀ x, operatorAll c.gates startWave x =
        if x < 2 ^ n then (-1) ^ k * (startAmplitude n : ℂ) else 0)) := by
  obtain ⟨flip, F, hplaced, hfits, hflip⟩ := exists_flipsOnes hn
  refine ⟨fun hwide => ⟨circuit_of_le hwide hne k, circuit_of_le hwide hne' k⟩, fun hword => ?_⟩
  obtain ⟨c, hc, hbuilt, hwidth, hgates⟩ := exists_circuit hn hword hne hmarked hplaced hfits k
  obtain ⟨c', hc', hbuilt', hwidth', hgates'⟩ :=
    exists_circuit hn hword hne' hmarked' hplaced hfits k
  have hsameWidth : c'.width = c.width := hwidth'.trans hwidth.symm
  refine ⟨c, c', hc, hc', hwidth, fun hsame => ?same, fun hk => ?told, fun heven x => ?unmarked⟩
  case same =>
    have hwave : operatorAll c'.gates startWave = operatorAll c.gates startWave := by
      rw [hgates, hgates', effect_gates_congr hflip hmarked hmarked' hsame]
    exact ⟨hwave, fun limit hlimit =>
      Circuit.state_congr_wave hbuilt hbuilt' hsameWidth hwave hlimit⟩
  case told =>
    -- after one round the wave itself tells which indices are marked
    have hwave : operatorAll c'.gates startWave = operatorAll c.gates startWave ↔
        SameMarks marked marked' := by
      rw [hgates, hgates', hk, eq_comm, effect_gates_one_eq_iff hflip hmarked hmarked']
    refine ⟨hwave, fun limit hlimit hsimulated => ?_⟩
    have hn := Circuit.width_lt_of_simulated hlimit hsimulated
    rw [Circuit.state_eq_iff hbuilt hbuilt' hsameWidth hn hsimulated, hwave]
  case unmarked =>
    rw [hgates, effect_gates_unmarked hflip hmarked heven, twoLevel]
    simp

/-- Two states in another order: the same final state. One of them a second time: another. -/
theorem circuit_marks_repeated : ∃ c c' d : Circuit ℝ,
    circuit 3 [2, 5] 1 = .ok c ∧ circuit 3 [5, 2] 1 = .ok c' ∧ circuit 3 [5, 2, 5] 1 = .ok d ∧
    c'.state 24 = c.state 24 ∧ d.state 24 ≠ c.state 24 := by
  have hsame : SameMarks [2, 5] [5, 2] :=
    sameMarks_of_nodup (by decide) (by decide) fun m => by simp [or_comm]
  have hother : ¬ SameMarks [2, 5] [5, 2, 5] := fun h => absurd (h 5) (by decide)
  obtain ⟨c, c', hc, hc', hwidth, hmarks, -, -⟩ :=
    (circuit_marks (n := 3) (by decide) (List.cons_ne_nil 2 [5])
      (List.cons_ne_nil 5 [2]) (by decide) (by decide) 1).2 (by decide)
  obtain ⟨e, d, he, hd, -, -, htold, -⟩ :=
    (circuit_marks (n := 3) (by decide) (List.cons_ne_nil 2 [5])
      (List.cons_ne_nil 5 [2, 5]) (by decide) (by decide) 1).2 (by decide)
  obtain rfl := Except.ok.inj (hc.symm.trans he)
  have hword : c.width < 64 := by
    rw [hwidth]
    decide
  have hsimulated : c.simulated 24 = true := by
    rw [Circuit.simulated, hwidth]
    rfl
  exact ⟨c, c', d, hc, hc', hd, (hmarks hsame).2 24 (.inl hword),
    fun h => hother (((htold rfl).2 24 (.inl hword) hsimulated).1 h)⟩

/-- The search for the state 2 of two qubits finds it for certain after one round. Where the state
is listed twice, the oracles cancel, and it is found with the probability of any state. -/
theorem not_found_twiceListed : (∀ m, m ∈ [2, 2] ↔ m ∈ [2]) ∧ ∃ c c' : Circuit ℝ, ∃ s s',
    circuit 2 [2] 1 = .ok c ∧ circuit 2 [2, 2] 1 = .ok c' ∧
    c.state 24 = .ok s ∧ c'.state 24 = .ok s' ∧ s.probability 2 = 1 ∧ s'.probability 2 = 1 / 4 := by
  obtain ⟨flip, F, hplaced, hfits, hflip⟩ := exists_flipsOnes (n := 2) (by decide)
  have hmarked : ∀ m ∈ [2], m < 2 ^ 2 := by decide
  have hmarked' : ∀ m ∈ [2, 2], m < 2 ^ 2 := by decide
  obtain ⟨c, hc, hbuilt, hwidth, hgates⟩ :=
    exists_circuit (by decide) (by decide) (List.cons_ne_nil 2 []) hmarked hplaced hfits 1
  obtain ⟨c', hc', hbuilt', hwidth', hgates'⟩ :=
    exists_circuit (by decide) (by decide) (List.cons_ne_nil 2 [2]) hmarked' hplaced hfits 1
  have hstate : ∀ {d : Circuit ℝ}, d.Built → d.width = 2 + workQubits 2 →
      ∃ s, d.state 24 = .ok s ∧ wave s.amplitudes = operatorAll d.gates startWave := by
    intro d hd hw
    have hsimulated : d.simulated 24 = true := by
      rw [Circuit.simulated, hw]
      rfl
    obtain ⟨amplitudes, hs, -, hwave⟩ :=
      Circuit.state_of_built hd (by rw [hw]; decide) hsimulated
    exact ⟨_, hs, hwave⟩
  obtain ⟨s, hs, hwave⟩ := hstate hbuilt hwidth
  obtain ⟨s', hs', hwave'⟩ := hstate hbuilt' hwidth'
  -- one round from the uniform state, for any marks
  have hstart : startAmplitude 2 = 1 / 2 := by
    rw [startAmplitude, sq, Scalar.invSqrtTwo_mul_self]
  have hon : OnRegister 2 (twoLevel 2 [] (1 / 2) (1 / 2)) := fun x hx => twoLevel_of_le hx
  have hround : ∀ {marked : List ℕ}, (∀ m ∈ marked, m < 2 ^ 2) →
      effect (gates flip 2 marked 1) startWave 2 = mark marked 2 * (1 / 2) -
        1 / 4 * (mark marked 0 + mark marked 1 + mark marked 2 + mark marked 3) := by
    intro marked hmarked
    rw [effect_gates_succ, effect_gates_zero, hstart, effect_round_apply hflip hmarked hon,
      if_pos (by decide)]
    simp only [show 2 ^ 2 = 4 from rfl, twoLevel, Finset.sum_range_succ, Finset.sum_range_zero]
    norm_num
    ring
  refine ⟨by simp, c, c', s, s', hc, hc', hs, hs', ?_, ?_⟩
  · rw [probability_eq, hwave, hgates, hround hmarked]
    norm_num [mark, List.count_cons]
  · rw [probability_eq, hwave', hgates', hround hmarked']
    norm_num [mark, List.count_cons]

end QuantumWorkbench.Amplification
