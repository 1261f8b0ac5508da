import Mathlib
import QuantumWorkbench.Algorithm.Amplification
import QuantumWorkbench.Proofs.Circuit.Placement
import QuantumWorkbench.Proofs.Gate.Diagonal
import QuantumWorkbench.Proofs.Simulation

/-!
# Phase flips of many qubits

A ladder of doubly controlled negations adds to each work qubit the conjunction of the controls so
far. Around a controlled phase the ladder and its reverse cancel, whatever the work qubits hold, so
the whole is a phase; from clear work qubits it is the sign of the all-ones state.
-/

namespace QuantumWorkbench.Amplification

open Gate Placement Register

/-! ## What a ladder collects -/

/-- The value that arrives at the top of a ladder: each work qubit adds to its own bit the
conjunction of the value so far and the next control. -/
def collected (b : Bool) : List ℕ → List ℕ → ℕ → Bool
  | q :: qs, w :: ws, x => collected (x.testBit w ^^ (b && x.testBit q)) qs ws x
  | _, _, _ => b

/-- The qubit at the top of a ladder. -/
def top (accumulated : ℕ) : List ℕ → List ℕ → ℕ
  | _ :: qs, w :: ws => top w qs ws
  | _, _ => accumulated

theorem collected_congr {b : Bool} {qs ws : List ℕ} {x y : ℕ}
    (h : ∀ p ∈ qs ++ ws, x.testBit p = y.testBit p) :
    collected b qs ws x = collected b qs ws y := by
  induction qs generalizing b ws with
  | nil => rfl
  | cons q qs ih =>
    cases ws with
    | nil => rfl
    | cons w ws =>
      have hrest : ∀ p ∈ qs ++ ws, x.testBit p = y.testBit p := fun p hp => h p (by grind)
      rw [collected, collected, h q (by simp), h w (by simp), ih hrest]

/-- From clear work qubits a ladder collects the conjunction of its controls. -/
theorem collected_of_clear {b : Bool} {qs ws : List ℕ} {x : ℕ} (hlen : qs.length ≤ ws.length)
    (hclear : ∀ w ∈ ws, x.testBit w = false) :
    collected b qs ws x = (b && qs.all x.testBit) := by
  induction qs generalizing b ws with
  | nil => simp [collected]
  | cons q qs ih =>
    cases ws with
    | nil => exact absurd hlen (by simp)
    | cons w ws =>
      obtain ⟨hw, hws⟩ := List.forall_mem_cons.1 hclear
      rw [collected, ih (by simpa using hlen) hws, hw, Bool.false_xor, List.all_cons,
        Bool.and_assoc]

theorem top_eq_getD {accumulated : ℕ} {qs ws : List ℕ} (hne : qs ≠ [])
    (hlen : qs.length ≤ ws.length) (d : ℕ) :
    top accumulated qs ws = ws.getD (qs.length - 1) d := by
  induction qs generalizing accumulated ws with
  | nil => exact absurd rfl hne
  | cons q qs ih =>
    cases ws with
    | nil => exact absurd hlen (by simp)
    | cons w ws =>
      cases qs with
      | nil => rfl
      | cons r qs =>
        rw [top, ih (List.cons_ne_nil r qs) (by simpa using hlen)]
        rfl

/-! ## Ladders -/

/-- What one rung does to an index: the conjunction of two bits is added to a third. -/
def rung (a b c : ℕ) : ℕ → ℕ := flipIf (fun x => x.testBit a && x.testBit b) c

theorem testBit_rung (a b c x : ℕ) :
    (rung a b c x).testBit c = (x.testBit c ^^ (x.testBit a && x.testBit b)) := by
  rw [rung, testBit_flipIf, if_pos rfl]

theorem testBit_rung_of_ne {c p : ℕ} (hp : p ≠ c) (a b x : ℕ) :
    (rung a b c x).testBit p = x.testBit p := by
  rw [rung, testBit_flipIf, if_neg hp]

/-- A ladder, a controlled phase at its top and the ladder back. -/
def ladder {α : Type} (accumulated last : ℕ) (qs ws : List ℕ) : List (Placement α) :=
  conjunctions (ladderFrom accumulated qs ws) ++ [.of .cz [top accumulated qs ws, last]] ++
    conjunctions (ladderFrom accumulated qs ws).reverse

/-- The first rung is also the last. -/
theorem ladder_cons {α : Type} (accumulated last q w : ℕ) (qs ws : List ℕ) :
    (ladder accumulated last (q :: qs) (w :: ws) : List (Placement α)) =
      .of .toffoli [accumulated, q, w] ::
        (ladder w last qs ws ++ [.of .toffoli [accumulated, q, w]]) := by
  simp [ladder, ladderFrom, top, conjunctions]

/-- **A ladder and its way back** are one phase, whatever the work qubits hold. -/
theorem effect_ladder {accumulated last : ℕ} {qs ws : List ℕ}
    (hnodup : (accumulated :: last :: (qs ++ ws)).Nodup) :
    effect (ladder accumulated last qs ws) = phases fun x =>
      bitPhase (-1) (collected (x.testBit accumulated) qs ws x && x.testBit last) := by
  induction qs generalizing accumulated ws with
  | nil => exact (effect_of .cz [accumulated, last]).trans (operator_cz accumulated last)
  | cons q qs ih =>
    cases ws with
    | nil => exact (effect_of .cz [accumulated, last]).trans (operator_cz accumulated last)
    | cons w ws =>
      have htriple : [accumulated, q, w].Nodup := by grind
      have hrest : (w :: last :: (qs ++ ws)).Nodup := by grind
      have hlast : last ≠ w := by grind
      -- the first rung changes only its work qubit, which the rest of the ladder starts from
      have hcollected : ∀ x, collected ((rung accumulated q w x).testBit w) qs ws
          (rung accumulated q w x) = collected (x.testBit accumulated) (q :: qs) (w :: ws) x := by
        intro x
        rw [testBit_rung, collected]
        exact collected_congr fun p hp => testBit_rung_of_ne (by grind) accumulated q x
      calc effect (ladder accumulated last (q :: qs) (w :: ws))
          = (plain .toffoli [accumulated, q, w]).operator ∘ₗ effect (ladder w last qs ws) ∘ₗ
            (plain .toffoli [accumulated, q, w]).operator := by
            rw [ladder_cons, effect_cons, effect_append, effect_of, made_of, LinearMap.comp_assoc]
        _ = phases fun x => bitPhase (-1) (collected ((rung accumulated q w x).testBit w) qs ws
              (rung accumulated q w x) && (rung accumulated q w x).testBit last) := by
            rw [ih hrest, operator_toffoli_phases_toffoli htriple]
            rfl
        _ = _ := by simp only [hcollected, testBit_rung_of_ne hlast]

theorem fitsIn_ladder {width accumulated last : ℕ} {qs ws : List ℕ}
    (hnodup : (accumulated :: last :: (qs ++ ws)).Nodup)
    (hinside : ∀ q ∈ accumulated :: last :: (qs ++ ws), q < width) :
    ∀ p ∈ (ladder accumulated last qs ws : List (Placement ℝ)), p.FitsIn width := by
  have hphase : (of .cz [accumulated, last] : Placement ℝ).FitsIn width :=
    fitsIn_two rfl (by grind) (hinside _ (by simp)) (hinside _ (by simp))
  induction qs generalizing accumulated ws with
  | nil => exact List.forall_mem_singleton.2 hphase
  | cons q qs ih =>
    cases ws with
    | nil => exact List.forall_mem_singleton.2 hphase
    | cons w ws =>
      have htriple : [accumulated, q, w].Nodup := by grind
      have hrung : (of .toffoli [accumulated, q, w] : Placement ℝ).FitsIn width :=
        fitsIn_of rfl htriple fun p hp => hinside p (by grind)
      have hrest : ∀ p ∈ w :: last :: (qs ++ ws), p < width := fun p hp => hinside p (by grind)
      have hnext : (of .cz [w, last] : Placement ℝ).FitsIn width :=
        fitsIn_two rfl (by grind) (hrest w (by simp)) (hrest last (by simp))
      rw [ladder_cons, List.forall_mem_cons, List.forall_mem_append, List.forall_mem_singleton]
      exact ⟨hrung, ih (by grind) hrest hnext, hrung⟩

/-! ## Phase flips -/

/-- Three qubits and more need a work qubit for each but the first and the last. -/
theorem workQubits_of_split {a b c last : ℕ} {rest middle : List ℕ}
    (hsplit : b :: c :: rest = middle ++ [last]) :
    workQubits (a :: b :: c :: rest).length = middle.length := by
  rw [hsplit, List.length_cons, List.length_append, List.length_singleton, workQubits]
  rfl

/-- **Three qubits and more take a ladder**: all but the last go up. -/
theorem phaseFlip_eq_ladder {a b c last : ℕ} {rest middle work : List ℕ}
    (hsplit : b :: c :: rest = middle ++ [last]) (hlen : middle.length ≤ work.length) :
    phaseFlip (a :: b :: c :: rest) work =
      .ok (ladder a last middle work : List (Placement ℝ)) := by
  have hneeded := workQubits_of_split (a := a) hsplit
  have hdrop : (b :: c :: rest).dropLast = middle := by rw [hsplit, List.dropLast_concat]
  have hlast : (b :: c :: rest).getLastD a = last := by rw [hsplit]; simp
  have hmiddle : middle ≠ [] := by
    rintro rfl
    cases hsplit
  rw [phaseFlip, hneeded, if_neg (by omega), hdrop, hlast, ladder, top_eq_getD hmiddle hlen a]
  all_goals simp

/-- **The phase flip of many qubits.** On distinct qubits with enough distinct work qubits it is
described, it fits every register that holds them all, and it multiplies by a phase, so it leaves
the work qubits as they are; where they are clear the phase is the sign of the all-ones state. -/
theorem phaseFlip_of_nodup {qubits work : List ℕ} (hne : qubits ≠ [])
    (hnodup : (qubits ++ work).Nodup) (hlen : workQubits qubits.length ≤ work.length) :
    ∃ ps : List (Placement ℝ), phaseFlip qubits work = .ok ps ∧
      (∀ width, (∀ q ∈ qubits ++ work, q < width) → ∀ p ∈ ps, p.FitsIn width) ∧
      ∃ F : ℕ → ℂ, effect ps = phases F ∧ ∀ x, (∀ w ∈ work, x.testBit w = false) →
        F x = bitPhase (-1) (qubits.all x.testBit) := by
  rcases qubits with _ | ⟨a, _ | ⟨b, _ | ⟨c, rest⟩⟩⟩
  · exact absurd rfl hne
  · refine ⟨_, rfl, fun width hinside p hp => ?_, _, (effect_of .z [a]).trans (operator_z a),
      fun x _ => by simp⟩
    rw [List.mem_singleton.1 hp]
    exact fitsIn_one rfl (hinside a (by simp))
  · refine ⟨_, rfl, fun width hinside p hp => ?_, _, (effect_of .cz [a, b]).trans (operator_cz a b),
      fun x _ => by simp⟩
    rw [List.mem_singleton.1 hp]
    exact fitsIn_two rfl (by grind) (hinside a (by simp)) (hinside b (by simp))
  · -- all but the last qubit go up the ladder
    obtain ⟨middle, last, hsplit⟩ : ∃ middle last, b :: c :: rest = middle ++ [last] :=
      ⟨_, _, (List.dropLast_append_getLast (List.cons_ne_nil b _)).symm⟩
    rw [workQubits_of_split hsplit] at hlen
    have hflip := phaseFlip_eq_ladder (a := a) hsplit hlen
    have hnodup' : (a :: last :: (middle ++ work)).Nodup := by grind
    refine ⟨_, hflip, fun width hinside => fitsIn_ladder hnodup' fun q hq => hinside q (by grind),
      _, effect_ladder hnodup', fun x hclear => ?_⟩
    rw [collected_of_clear hlen hclear, hsplit, List.all_cons, List.all_append, List.all_cons,
      List.all_nil, Bool.and_true, Bool.and_assoc]

/-! ## Work qubits in use -/

theorem ladderFrom_take {accumulated k : ℕ} {qs : List ℕ} (hk : qs.length ≤ k) (ws : List ℕ) :
    ladderFrom accumulated qs (ws.take k) = ladderFrom accumulated qs ws := by
  induction qs generalizing accumulated k ws with
  | nil => rfl
  | cons q qs ih =>
    obtain ⟨k, rfl⟩ := Nat.exists_eq_add_one_of_ne_zero (Nat.ne_of_gt (Nat.zero_lt_of_lt hk))
    cases ws with
    | nil => rfl
    | cons w ws =>
      rw [List.take_succ_cons, ladderFrom, ladderFrom, ih (Nat.le_of_succ_le_succ hk)]

/-- The work qubits beyond those that are needed play no part. -/
theorem phaseFlip_take {α : Type} [Scalar α] {qubits work : List ℕ}
    (hlen : workQubits qubits.length ≤ work.length) :
    (phaseFlip qubits (work.take (workQubits qubits.length)) :
      Except (TaskError α) (List (Placement α))) = phaseFlip qubits work := by
  rcases qubits with _ | ⟨a, _ | ⟨b, _ | ⟨c, rest⟩⟩⟩
  · rfl
  · rfl
  · rfl
  · have hneeded : workQubits (a :: b :: c :: rest).length = rest.length + 1 := rfl
    have hmiddle : (b :: c :: rest).dropLast.length = rest.length + 1 := by simp
    rw [hneeded] at hlen ⊢
    have htop : (work.take (rest.length + 1)).getD rest.length a = work.getD rest.length a := by
      simp [List.getD_eq_getElem?_getD]
    simp only [phaseFlip, hneeded, Nat.add_sub_cancel, List.length_take, Nat.min_eq_left hlen,
      if_neg (lt_irrefl _), if_neg (Nat.not_lt.2 hlen), ladderFrom_take hmiddle.le, htop]

/-- Only a ladder needs work qubits, so with too few of them there are at least three qubits. -/
theorem phaseFlip_of_few {α : Type} [Scalar α] {qubits work : List ℕ}
    (hfew : work.length < workQubits qubits.length) :
    (phaseFlip qubits work : Except (TaskError α) (List (Placement α))) =
      .error (.fewWorkQubits qubits.length (workQubits qubits.length) work.length) := by
  rcases qubits with _ | ⟨a, _ | ⟨b, _ | ⟨c, rest⟩⟩⟩
  · exact absurd hfew (Nat.not_lt_zero _)
  · exact absurd hfew (Nat.not_lt_zero _)
  · exact absurd hfew (Nat.not_lt_zero _)
  · simp only [phaseFlip, if_pos hfew]

/-! ## On a circuit -/

/-- The qubits of a list are zero in every part of a wave. -/
def Clear (qs : List ℕ) (ψ : Wave) : Prop := ∀ x, (∃ q ∈ qs, x.testBit q = true) → ψ x = 0

/-- The sign of the all-ones state of some qubits, amplitude by amplitude. -/
theorem wave_mapIdx_neg (qubits : List ℕ) (amplitudes : Array (Amplitude ℝ)) (x : ℕ) :
    wave (amplitudes.mapIdx fun x a => if qubits.all x.testBit then -a else a) x =
      if qubits.all x.testBit then -wave amplitudes x else wave amplitudes x := by
  simp only [wave, Array.getD_eq_getD_getElem?, Array.getElem?_mapIdx]
  cases amplitudes[x]? <;> by_cases hx : qubits.all x.testBit <;> simp [hx]

/-- **The phase flip of many qubits on a circuit.** On distinct qubits of the register, with enough
distinct work qubits beside them, it is placed as a whole. Its gates negate the amplitudes of the
indices that have a one at every qubit and leave the others as they are, work qubits included,
wherever the work qubits in use are zero; also on the vectors of the simulation. With fewer work
qubits it is refused, and the circuit stays as it was. -/
theorem append_phaseFlip {c : Circuit ℝ} {qubits work : List ℕ} :
    let used := work.take (workQubits qubits.length)
    (qubits ≠ [] → workQubits qubits.length ≤ work.length → (qubits ++ used).Nodup →
      (∀ q ∈ qubits ++ used, q < c.width) → ∃ gates : List (Gate ℝ),
        c.append (phaseFlip qubits work) = (c.appendGates gates, none) ∧
        (∀ ψ, Clear used ψ → ∀ x,
          operatorAll gates ψ x = if qubits.all x.testBit then -ψ x else ψ x) ∧
        (c.width < 64 → ∀ amplitudes : Array (Amplitude ℝ), amplitudes.size = 2 ^ c.width →
          Clear used (wave amplitudes) → actAll gates amplitudes =
            amplitudes.mapIdx fun x a => if qubits.all x.testBit then -a else a)) ∧
    (work.length < workQubits qubits.length → c.append (phaseFlip qubits work) =
      (c, some (.fewWorkQubits qubits.length (workQubits qubits.length) work.length))) := by
  intro used
  refine ⟨fun hne hlen hnodup hinside => ?_, fun hfew => ?_⟩
  · have hused : workQubits qubits.length ≤ used.length := by
      rw [List.length_take]
      exact le_min le_rfl hlen
    obtain ⟨ps, hplaced, hfits, F, heffect, hsign⟩ := phaseFlip_of_nodup hne hnodup hused
    rw [phaseFlip_take hlen] at hplaced
    have hoperator : ∀ ψ, Clear used ψ → ∀ x, operatorAll (ps.map made) ψ x =
        if qubits.all x.testBit then -ψ x else ψ x := fun ψ hψ x => by
      rw [← effect, heffect, phases_apply]
      by_cases hx : ∃ w ∈ used, x.testBit w = true
      · -- where a work qubit is one there is nothing to multiply
        simp [hψ x hx]
      · rw [hsign x fun w hw => Bool.eq_false_iff.2 fun h => hx ⟨w, hw, h⟩]
        cases qubits.all x.testBit <;> simp
    refine ⟨ps.map made, ?_, hoperator, fun hword amplitudes hsize hclear => ?_⟩
    · rw [hplaced]
      exact Circuit.append_of_fitsIn (hfits c.width hinside)
    · obtain ⟨hsizeAll, hwave⟩ :=
        wave_actAll hword (Circuit.builtIn_map_made (hfits c.width hinside)) hsize
      refine eq_of_wave hsizeAll (by rw [Array.size_mapIdx, hsize]) (funext fun x => ?_)
      rw [hwave, hoperator _ hclear, wave_mapIdx_neg]
  · rw [phaseFlip_of_few hfew, Circuit.append]

/-- Four qubits with two work qubits between them; the third work qubit is not needed, so it may lie
outside the register. The index 43 has ones at the four qubits, the index 11 at three of them. One
work qubit is too few. -/
theorem append_phaseFlip_four :
    let c : Circuit ℝ := Circuit.blank 6 0
    let state (x : ℕ) := (StateVector.basis 6 x : StateVector ℝ).amplitudes
    (∃ gates : List (Gate ℝ),
      c.append (phaseFlip [5, 0, 3, 1] [4, 2, 9]) = (c.appendGates gates, none) ∧
      wave (actAll gates (state 43)) = -wave (state 43) ∧ actAll gates (state 11) = state 11) ∧
    c.append (phaseFlip [5, 0, 3, 1] [4]) = (c, some (.fewWorkQubits 4 2 1)) := by
  intro c state
  have hwave : ∀ x < 2 ^ 6, wave (state x) = Pi.single x 1 := fun x hx => wave_basis hx
  have hsize : ∀ x, (state x).size = 2 ^ c.width := fun x => size_basis (by decide) x
  have hclear : ∀ x < 2 ^ 6, (∀ q ∈ [4, 2], x.testBit q = false) →
      Clear [4, 2] (wave (state x)) := by
    rintro x hx hbits y ⟨q, hq, hy⟩
    have hne : y ≠ x := by
      rintro rfl
      exact Bool.false_ne_true ((hbits q hq).symm.trans hy)
    rw [hwave x hx, Pi.single_eq_of_ne hne]
  obtain ⟨gates, hplaced, -, hact⟩ := (@append_phaseFlip c [5, 0, 3, 1] [4, 2, 9]).1 (by decide)
    (by decide) (by decide) (by decide)
  have hall := hact (by decide)
  refine ⟨⟨gates, hplaced, ?_, ?_⟩, append_phaseFlip.2 (by decide)⟩
  · rw [hall _ (hsize 43) (hclear 43 (by decide) (by decide))]
    funext x
    rw [wave_mapIdx_neg, Pi.neg_apply, hwave 43 (by decide)]
    by_cases hx : x = 43
    · subst hx
      exact if_pos (by decide)
    · simp [Pi.single_eq_of_ne hx]
  · rw [hall _ (hsize 11) (hclear 11 (by decide) (by decide))]
    refine eq_of_wave (n := 6) (by rw [Array.size_mapIdx, hsize]; rfl) (hsize 11) ?_
    funext x
    rw [wave_mapIdx_neg, hwave 11 (by decide)]
    by_cases hx : x = 11
    · subst hx
      exact if_neg (by decide)
    · simp [Pi.single_eq_of_ne hx]

end QuantumWorkbench.Amplification
