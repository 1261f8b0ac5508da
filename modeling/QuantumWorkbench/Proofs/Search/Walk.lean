import Mathlib
import QuantumWorkbench.Proofs.Search.Annealing

/-!
# The running objective of a walk

A walk never computes the objective of its current assignment anew. It adds up the changes of the
flips that it takes, each computed from the terms of one variable. Without rounding the change of a
flip is exact, so after every step the running objective is that of the current assignment, and the
best assignment that the walk has kept has the least objective of all that it has visited.
-/

namespace QuantumWorkbench

/-- A source whose bits are bits and whose bounded draws stay below their bound, as a walk over a
number of variables draws them. -/
structure Random.Source.InRange {σ α : Type} (source : Random.Source σ α) (n : ℕ) : Prop where
  bit : ∀ s, (source.bit s).1 < 2
  below : ∀ s, (source.below n s).1 < n

theorem Random.Generator.inRange_source {α : Type} [Scalar α] {n : ℕ} (hn : 0 < n) :
    (source : Source Generator α).InRange n :=
  ⟨bit_lt_two, fun g => belowFrom_lt hn maxAttempts g⟩

namespace Annealing

open Qubo

/-! ## The change of a flip -/

section

variable {bits : List ℕ} {k : ℕ} (hbits : IsAssignment bits) (hk : k < bits.length)

theorem bitAt_flip_of_ne {v : ℕ} (hv : v ≠ k) : bitAt (flip bits k) v = bitAt bits v := by
  simp only [bitAt, flip, List.getD_eq_getElem?_getD, List.getElem?_modify, Ne.symm hv]
  simp

include hk in
theorem bitAt_flip_self : bitAt (flip bits k) k = if bitAt bits k = 0 then 1 else 0 := by
  simp [bitAt, flip, hk]

include hbits hk

/-- A flip turns a bit into what is missing to one. -/
theorem bitAt_flip_self_real : (bitAt (flip bits k) k : ℝ) = 1 - bitAt bits k := by
  have hlt := hbits.bitAt_lt k
  rw [bitAt_flip_self hk]
  interval_cases bitAt bits k <;> simp

/-- What a term adds to the change of a flip: nothing, unless it is a term of the variable. -/
theorem change_term (e : (ℕ × ℕ) × ℝ) :
    (if (e.1.1 = k || e.1.2 = k) = true then (1 - 2 * bitAt bits k) * slopeTerm bits k e else 0) =
      e.2 * (bothSet (flip bits k) e.1 - bothSet bits e.1) := by
  obtain ⟨⟨i, j⟩, x⟩ := e
  have hself := bitAt_flip_self_real hbits hk
  simp only [slopeTerm, bothSet, Scalar.num_real, Bool.or_eq_true, decide_eq_true_eq]
  by_cases hi : i = k
  · subst hi
    by_cases hj : j = i
    · -- a linear term: both of its bits are the flipped one
      subst hj
      simp only [true_or, if_true, hself]
      ring
    · rw [bitAt_flip_of_ne hj, hself, if_pos (Or.inl rfl), if_neg (Ne.symm hj), if_pos rfl, ← bitAt]
      ring
  · by_cases hj : j = k
    · subst hj
      rw [bitAt_flip_of_ne hi, hself, if_pos (Or.inr rfl), if_neg hi, if_neg hi, ← bitAt]
      ring
    · -- a term of other variables keeps its value
      rw [bitAt_flip_of_ne hi, bitAt_flip_of_ne hj, if_neg (not_or.2 ⟨hi, hj⟩), sub_self, mul_zero]

/-- **The change of a flip is exact**: the difference of the objective after and before. -/
theorem flipDelta_eq_sub (q : Qubo ℝ) :
    q.flipDelta bits k = q.evaluate (flip bits k) - q.evaluate bits := by
  have hflip : IsAssignment (flip bits k) := isAssignment_flip hbits k
  have hdirection : (if bits.getD k 0 = 0 then 1 else -1 : ℝ) = 1 - 2 * bitAt bits k := by
    have hlt := hbits.bitAt_lt k
    rw [← bitAt]
    interval_cases bitAt bits k <;> norm_num
  have hterms : (fun e : (ℕ × ℕ) × ℝ => e.2 * (bothSet (flip bits k) e.1 - bothSet bits e.1)) =
      fun e => if (e.1.1 = k || e.1.2 = k) = true
        then (1 - 2 * bitAt bits k : ℝ) * slopeTerm bits k e else 0 :=
    funext fun e => (change_term hbits hk e).symm
  -- the terms without the bit do not change, and the others by their slope
  calc q.flipDelta bits k
      = ((q.terms.entries.filter fun e => e.1.1 = k || e.1.2 = k).map fun e =>
          (1 - 2 * bitAt bits k : ℝ) * slopeTerm bits k e).sum := by
        rw [flipDelta, hdirection, Scalar.sum_real, ← List.sum_map_mul_left]
    _ = q.terms.weighted fun pair => bothSet (flip bits k) pair - bothSet bits pair := by
        rw [SortedMap.weighted, hterms, List.sum_map_ite]
        simp
    _ = q.evaluate (flip bits k) - q.evaluate bits := by
        rw [SortedMap.weighted_sub, ← evaluate_eq_weighted hflip, ← evaluate_eq_weighted hbits]

end

/-! ## What a walk keeps track of -/

section

variable {σ : Type} {q : Qubo ℝ} {source : Random.Source σ ℝ} {w : Walk ℝ σ}

/-- A walk that has visited some assignments: it stands at one of them and keeps another, none of
them has a lower objective than the one that is kept, and both running sums are true. -/
structure Walk.Tracks (w : Walk ℝ σ) (q : Qubo ℝ) (visited : List (List ℕ)) : Prop where
  assigns : ∀ bits ∈ visited, q.Assigns bits
  current_mem : w.bits ∈ visited
  current_energy : w.energy = q.evaluate w.bits
  best_mem : w.best.bits ∈ visited
  best_energy : w.best.energy = q.evaluate w.best.bits
  best_le : ∀ bits ∈ visited, w.best.energy ≤ q.evaluate bits

theorem tracks_start (hsource : source.InRange q.width) (temperature : ℝ) (s : σ) :
    (start q q.width source temperature s).Tracks q
      [(start q q.width source temperature s).bits] where
  assigns := List.forall_mem_singleton.2 (assigns_start hsource.bit temperature s).current
  current_mem := List.mem_singleton_self _
  current_energy := rfl
  best_mem := List.mem_singleton_self _
  best_energy := rfl
  best_le := List.forall_mem_singleton.2 le_rfl

/-- Taking a flip visits one assignment more. -/
theorem Walk.Tracks.take {visited : List (List ℕ)} (h : w.Tracks q visited) {k : ℕ}
    (hk : k < q.width) : (w.take k (q.flipDelta w.bits k)).Tracks q
      (visited ++ [(w.take k (q.flipDelta w.bits k)).bits]) := by
  have hcurrent := h.assigns w.bits h.current_mem
  have henergy : w.energy + q.flipDelta w.bits k = q.evaluate (flip w.bits k) := by
    rw [h.current_energy, flipDelta_eq_sub hcurrent.binary (hcurrent.length ▸ hk)]
    ring
  have hassigns : ∀ bits ∈ visited ++ [flip w.bits k], q.Assigns bits :=
    List.forall_mem_append.2
      ⟨h.assigns, List.forall_mem_singleton.2 (assigns_flip hcurrent k)⟩
  have hlast : flip w.bits k ∈ visited ++ [flip w.bits k] :=
    List.mem_append_right _ (List.mem_singleton_self _)
  simp only [Walk.take, henergy]
  split
  · next hlt =>
    -- the new assignment is lower than the best so far, hence lower than all
    exact ⟨hassigns, hlast, rfl, hlast, rfl, List.forall_mem_append.2
      ⟨fun bits hbits => hlt.le.trans (h.best_le bits hbits), List.forall_mem_singleton.2 le_rfl⟩⟩
  · next hge =>
    exact ⟨hassigns, hlast, rfl, List.mem_append_left _ h.best_mem, h.best_energy,
      List.forall_mem_append.2 ⟨h.best_le, List.forall_mem_singleton.2 (not_lt.1 hge)⟩⟩

/-- Staying visits the current assignment once more. -/
theorem Walk.Tracks.stay {visited : List (List ℕ)} (h : w.Tracks q visited) (s : σ) :
    Walk.Tracks { w with source := s } q (visited ++ [w.bits]) where
  assigns := List.forall_mem_append.2
    ⟨h.assigns, List.forall_mem_singleton.2 (h.assigns _ h.current_mem)⟩
  current_mem := List.mem_append_right _ (List.mem_singleton_self _)
  current_energy := h.current_energy
  best_mem := List.mem_append_left _ h.best_mem
  best_energy := h.best_energy
  best_le := List.forall_mem_append.2
    ⟨h.best_le, List.forall_mem_singleton.2 (h.best_le _ h.current_mem)⟩

/-- **The step**: a proposal, taken or not, keeps track. -/
theorem Walk.Tracks.propose {visited : List (List ℕ)} (h : w.Tracks q visited)
    (hsource : source.InRange q.width) : (propose q q.width source w).Tracks q
      (visited ++ [(propose q q.width source w).bits]) := by
  have htake : ∀ s : σ, Walk.Tracks { w with source := s } q visited := fun s =>
    ⟨h.assigns, h.current_mem, h.current_energy, h.best_mem, h.best_energy, h.best_le⟩
  simp only [Annealing.propose]
  split
  · exact (htake _).take (hsource.below _)
  · exact h.stay _

theorem Walk.Tracks.cool {visited : List (List ℕ)} (h : w.Tracks q visited) (n step : ℕ)
    (cooling : ℝ) : (w.cool n step cooling).Tracks q visited := by
  unfold Walk.cool
  split
  · exact ⟨h.assigns, h.current_mem, h.current_energy, h.best_mem, h.best_energy, h.best_le⟩
  · exact h

end

/-! ## Walks step by step -/

section

variable {α σ : Type} [Scalar α]

/-- The walk of a schedule after some of its steps. -/
def walkAfter (q : Qubo α) (n : ℕ) (source : Random.Source σ α) (schedule : Schedule α) (s : σ)
    (steps : ℕ) : Walk α σ := walk q n source { schedule with steps } s

/-- The assignments that a walk stands at: the one it starts from, and one after each step. -/
def visited (q : Qubo α) (n : ℕ) (source : Random.Source σ α) (schedule : Schedule α) (s : σ)
    (steps : ℕ) : List (List ℕ) :=
  (List.range (steps + 1)).map fun t => (walkAfter q n source schedule s t).bits

theorem walkAfter_succ (q : Qubo α) (n : ℕ) (source : Random.Source σ α) (schedule : Schedule α)
    (s : σ) (t : ℕ) : walkAfter q n source schedule s (t + 1) =
      (propose q n source (walkAfter q n source schedule s t)).cool n t schedule.cooling := by
  simp only [walkAfter, walk, List.range_succ, List.foldl_append, List.foldl_cons, List.foldl_nil]

end

section

variable {σ : Type} {q : Qubo ℝ} {source : Random.Source σ ℝ}
  (hsource : source.InRange q.width)
include hsource

/-- **The run**: after any number of steps a walk has kept track of all assignments that it stood
at. -/
theorem tracks_walkAfter (schedule : Schedule ℝ) (s : σ) (t : ℕ) :
    (walkAfter q q.width source schedule s t).Tracks q
      (visited q q.width source schedule s t) := by
  induction t with
  | zero => exact tracks_start hsource schedule.temperature s
  | succ t ih =>
    have hcool : ∀ w : Walk ℝ σ, (w.cool q.width t schedule.cooling).bits = w.bits := fun w => by
      unfold Walk.cool
      split <;> rfl
    rw [visited, List.range_succ, List.map_append, List.map_singleton, walkAfter_succ, hcool]
    exact (ih.propose hsource).cool _ _ _

/-- A solution is the best of some assignments: it is one of them with its value, and none has a
lower value. -/
structure IsBestOf (q : Qubo ℝ) (visited : List (List ℕ)) (best : Solution ℝ) : Prop where
  scores : q.Scores best
  mem : best.bits ∈ visited
  le : ∀ bits ∈ visited, best.energy ≤ q.evaluate bits

theorem isBestOf_read (schedule : Schedule ℝ) (s : σ) :
    IsBestOf q (visited q q.width source schedule s schedule.steps)
      (read q q.width source schedule s) := by
  have htracks := tracks_walkAfter hsource schedule s schedule.steps
  have hbest := htracks.best_le
  rw [htracks.best_energy] at hbest
  exact ⟨scores_read hsource.bit schedule s, htracks.best_mem, hbest⟩

end

/-! ## Samples -/

/-- The samples are the reads, in the order of their values. -/
theorem exists_sample_sorted {σ : Type} {q : Qubo ℝ} {schedule : Schedule ℝ}
    (hcheck : schedule.check = .ok ()) (hpos : 0 < q.width)
    (hwidth : Storage.holdsBytes q.width = true)
    (hreads : Storage.holdsSolutions schedule.reads = true) (source : Random.Source σ ℝ)
    (seed : ℕ → σ) :
    ∃ samples, sample q source schedule seed = .ok samples ∧
      samples.Perm ((List.range schedule.reads).map fun k =>
        read q q.width source schedule (seed k)) ∧
      samples.Pairwise fun a b => a.energy ≤ b.energy := by
  simp only [sample, hcheck, bind, Except.bind, hpos.ne', hwidth, hreads]
  refine ⟨_, rfl, List.mergeSort_perm _ _, ?_⟩
  have htrans : ∀ a b c : Solution ℝ, Scalar.atMost a.energy b.energy = true →
      Scalar.atMost b.energy c.energy = true → Scalar.atMost a.energy c.energy = true := by
    intro a b c hab hbc
    exact decide_eq_true ((of_decide_eq_true hab).trans (of_decide_eq_true hbc))
  have htotal : ∀ a b : Solution ℝ,
      (Scalar.atMost a.energy b.energy || Scalar.atMost b.energy a.energy) = true := by
    intro a b
    simpa [Scalar.atMost] using le_total a.energy b.energy
  exact (List.pairwise_mergeSort htrans htotal _).imp fun h => of_decide_eq_true h

/-- **A walk knows the objective of where it stands and keeps the best it has seen.** The change of
a flip is the difference of the objective, so after every step the running objective is that of the
current assignment. What a read returns is an assignment with its value, one of those that the walk
stood at and none of them lower. A schedule that is accepted gives one such solution for each read,
those of lower value first. -/
theorem walk_keeps_best {σ : Type} {q : Qubo ℝ} (hpos : 0 < q.width)
    {source : Random.Source σ ℝ} (hsource : source.InRange q.width) (schedule : Schedule ℝ) :
    (∀ bits, q.Assigns bits → ∀ k < q.width,
      q.flipDelta bits k = q.evaluate (flip bits k) - q.evaluate bits) ∧
    (∀ s t, (walkAfter q q.width source schedule s t).energy =
      q.evaluate (walkAfter q q.width source schedule s t).bits) ∧
    (∀ s, IsBestOf q (visited q q.width source schedule s schedule.steps)
      (read q q.width source schedule s)) ∧
    (schedule.check = .ok () → Storage.holdsBytes q.width = true →
      Storage.holdsSolutions schedule.reads = true → ∀ seed : ℕ → σ,
      ∃ samples, sample q source schedule seed = .ok samples ∧
        samples.length = schedule.reads ∧
        samples.Perm ((List.range schedule.reads).map fun k =>
          read q q.width source schedule (seed k)) ∧
        samples.Pairwise fun a b => a.energy ≤ b.energy) := by
  refine ⟨?change, ?running, ?best, ?samples⟩
  case change =>
    intro bits hbits k hk
    exact flipDelta_eq_sub hbits.binary (hbits.length ▸ hk) q
  case running => exact fun s t => (tracks_walkAfter hsource schedule s t).current_energy
  case best => exact fun s => isBestOf_read hsource schedule s
  case samples =>
    intro hcheck hwidth hreads seed
    obtain ⟨samples, hsamples, hperm, hsorted⟩ :=
      exists_sample_sorted hcheck hpos hwidth hreads source seed
    refine ⟨samples, hsamples, ?_, hperm, hsorted⟩
    rw [hperm.length_eq, List.length_map, List.length_range]

/-- Two variables of which either alone gives minus one, and both together nothing. -/
noncomputable def opposed : Qubo ℝ := ofTerms 2 [(0, 0, -1), (1, 0, 2), (1, 1, -1)]

/-- Dropping one of two chosen variables lowers the objective by one, and ten seeded reads of a
thousand steps each return the best of the assignments that they stood at. -/
theorem walk_keeps_best_opposed :
    0 < opposed.width ∧
    (Random.Generator.source : Random.Source Random.Generator ℝ).InRange opposed.width ∧
    opposed.flipDelta [1, 1] 0 = -1 ∧
    ∀ seed : ℕ → Random.Generator, ∃ samples,
      sample opposed Random.Generator.source .standard seed = .ok samples ∧
      samples.length = 10 ∧
      (∀ s ∈ samples, ∃ k, IsBestOf opposed
        (visited opposed opposed.width Random.Generator.source .standard (seed k) 1000) s) ∧
      samples.Pairwise fun a b => a.energy ≤ b.energy := by
  have hwidth : opposed.width = 2 := (isDeclared_ofTerms (by simp)).width_eq
  have hpos : 0 < opposed.width := by rw [hwidth]; exact two_pos
  have hsource : (Random.Generator.source : Random.Source Random.Generator ℝ).InRange
      opposed.width := Random.Generator.inRange_source hpos
  obtain ⟨hchange, -, hbest, hsample⟩ := walk_keeps_best hpos hsource .standard
  have hvalue : ∀ bits, IsAssignment bits → opposed.evaluate bits =
      valueOf bits [(0, 0, -1), (1, 0, 2), (1, 1, -1)] :=
    fun bits hbits => evaluate_ofTerms hbits 2 _
  have hcheck : (Schedule.standard : Schedule ℝ).check = .ok () := by
    norm_num [Schedule.check, Schedule.standard]
  refine ⟨hpos, hsource, ?_, fun seed => ?_⟩
  · rw [hchange [1, 1] ⟨hwidth.symm, by decide⟩ 0 hpos, hvalue _ (by decide), hvalue _ (by decide)]
    norm_num [valueOf, bothSet, bitAt, flip]
  · obtain ⟨samples, hsamples, hlength, hperm, hsorted⟩ :=
      hsample hcheck (by rw [hwidth]; decide) (by decide) seed
    refine ⟨samples, hsamples, hlength, fun s hs => ?_, hsorted⟩
    obtain ⟨k, -, rfl⟩ := List.mem_map.1 (hperm.mem_iff.1 hs)
    exact ⟨k, hbest (seed k)⟩

end Annealing

end QuantumWorkbench
