import Mathlib
import QuantumWorkbench.Proofs.Search.Exhaustive
import QuantumWorkbench.Search.Annealing

/-!
# Simulated annealing

Every state of a walk is an assignment, and so is the best of the states: a flip changes one bit to
the other. What a read returns is this best assignment with its value, which is computed anew and so
owes nothing to the running sum of the walk.
-/

namespace QuantumWorkbench

/-- What holds of every draw holds of a list of draws. -/
theorem Random.forall_draws {σ β : Type} {P : β → Prop} {draw : σ → β × σ}
    (hdraw : ∀ s, P (draw s).1) (n : ℕ) (s : σ) : ∀ x ∈ (draws draw n s).1, P x := by
  induction n generalizing s with
  | zero => exact fun x hx => absurd hx List.not_mem_nil
  | succ n ih =>
    rw [draws_succ]
    exact List.forall_mem_cons.2 ⟨hdraw s, ih _⟩

/-- The seeded generator draws bits. -/
theorem Random.Generator.bit_lt_two {α : Type} [Scalar α] (g : Generator) :
    ((source : Source Generator α).bit g).1 < 2 := by
  have hlt := g.word.1.toNat_lt_size
  have hbit : ((source : Source Generator α).bit g).1 = g.word.1.toNat * 2 / UInt32.size := rfl
  rw [hbit]
  exact Nat.div_lt_of_lt_mul (Nat.mul_lt_mul_of_pos_right hlt two_pos)

namespace Annealing

open Qubo

variable {α σ : Type} [Scalar α] {q : Qubo α} {source : Random.Source σ α} {w : Walk α σ}

/-! ## Flips -/

theorem isAssignment_flip {bits : List ℕ} (h : IsAssignment bits) (k : ℕ) :
    IsAssignment (flip bits k) := by
  intro b hb
  obtain ⟨i, hi⟩ := List.mem_iff_getElem?.1 hb
  rw [flip, List.getElem?_modify] at hi
  obtain ⟨b', hb', rfl⟩ := Option.map_eq_some_iff.1 hi
  have hlt := h b' (List.mem_of_getElem? hb')
  split_ifs
  · exact one_lt_two
  · exact two_pos
  · exact hlt

omit [Scalar α] in
theorem assigns_flip {bits : List ℕ} (h : q.Assigns bits) (k : ℕ) : q.Assigns (flip bits k) where
  length := by rw [flip, List.length_modify, h.length]
  binary := isAssignment_flip h.binary k

/-! ## Walks -/

/-- The current assignment of a walk and the best one so far have a bit for each variable. -/
structure Walk.Assigns (w : Walk α σ) (q : Qubo α) : Prop where
  current : q.Assigns w.bits
  best : q.Assigns w.best.bits

theorem assigns_start (hbit : ∀ s, (source.bit s).1 < 2) (temperature : α) (s : σ) :
    (start q q.width source temperature s).Assigns q := by
  have hbits : q.Assigns (Random.draws source.bit q.width s).1 :=
    ⟨Random.length_draws _ _ _, Random.forall_draws hbit _ _⟩
  exact ⟨hbits, hbits⟩

theorem Walk.Assigns.take (h : w.Assigns q) (k : ℕ) (delta : α) : (w.take k delta).Assigns q := by
  have hflip := assigns_flip h.current k
  refine ⟨hflip, ?_⟩
  simp only [Walk.take]
  split
  · exact hflip
  · exact h.best

omit [Scalar α] in
theorem Walk.Assigns.withSource (h : w.Assigns q) (s : σ) :
    Walk.Assigns { w with source := s } q := ⟨h.current, h.best⟩

/-- A proposal leads from an assignment to an assignment. -/
theorem Walk.Assigns.propose (h : w.Assigns q) (n : ℕ) (source : Random.Source σ α) :
    (propose q n source w).Assigns q := by
  simp only [Annealing.propose]
  split
  · exact (h.withSource _).take _ _
  · exact h.withSource _

theorem Walk.Assigns.cool (h : w.Assigns q) (n step : ℕ) (cooling : α) :
    (w.cool n step cooling).Assigns q := by
  unfold Walk.cool
  split
  · exact ⟨h.current, h.best⟩
  · exact h

/-- **A walk visits assignments only.** -/
theorem assigns_walk (hbit : ∀ s, (source.bit s).1 < 2) (schedule : Schedule α) (s : σ) :
    (walk q q.width source schedule s).Assigns q := by
  have hrun (steps : List ℕ) (w : Walk α σ) (h : w.Assigns q) :
      (steps.foldl (fun w step => (propose q q.width source w).cool q.width step schedule.cooling)
        w).Assigns q := by
    -- each step proposes and cools, and both lead from assignments to assignments
    induction steps generalizing w with
    | nil => exact h
    | cons step steps ih => exact ih _ ((h.propose _ _).cool _ _ _)
  exact hrun _ _ (assigns_start hbit _ _)

/-! ## Reads -/

theorem scores_read (hbit : ∀ s, (source.bit s).1 < 2) (schedule : Schedule α) (s : σ) :
    q.Scores (read q q.width source schedule s) :=
  ⟨(assigns_walk hbit schedule s).best, rfl⟩

/-- **Every sample is an assignment with its value.** -/
theorem scores_of_sample (hbit : ∀ s, (source.bit s).1 < 2) {schedule : Schedule α} {seed : ℕ → σ}
    {samples : List (Solution α)} (h : sample q source schedule seed = .ok samples) :
    ∀ s ∈ samples, q.Scores s := by
  cases hcheck : schedule.check with
  | error e => simp [sample, hcheck, bind, Except.bind] at h
  | ok =>
    simp only [sample, hcheck, bind, Except.bind] at h
    split_ifs at h
    obtain rfl := Except.ok.inj h
    intro s hs
    obtain ⟨k, -, rfl⟩ := List.mem_map.1 (List.mem_mergeSort.1 hs)
    exact scores_read hbit schedule (seed k)

/-- A schedule that is accepted gives a sample for each read, as long as the samples can be
stored. -/
theorem exists_sample {schedule : Schedule α} (hcheck : schedule.check = .ok ())
    (hpos : 0 < q.width) (hwidth : Storage.holdsBytes q.width = true)
    (hreads : Storage.holdsSolutions schedule.reads = true) (source : Random.Source σ α)
    (seed : ℕ → σ) :
    ∃ samples, sample q source schedule seed = .ok samples ∧ samples.length = schedule.reads := by
  simp only [sample, hcheck, bind, Except.bind, hpos.ne', hwidth, hreads]
  refine ⟨_, rfl, ?_⟩
  rw [List.length_mergeSort, List.length_map, List.length_range]

end Annealing

end QuantumWorkbench
