import Mathlib
import QuantumWorkbench.Proofs.Circuit.Operations
import QuantumWorkbench.State.Sampling

/-!
# The classical register

The register is filled by the measurements in the order in which they were recorded. A measurement
that reads a one writes it into its bit; one that reads a zero writes nothing. So a one that was
written stays, and a bit shows whether any of its measurements reads a one. This is what the last of
them reads, unless that one reads a zero and an earlier one does not.
-/

namespace QuantumWorkbench.Circuit

variable {α : Type} {c : Circuit α} {x bit : ℕ}

/-! ## Filling the register -/

/-- The register, highest bit first, after one more measurement of a basis index. -/
def fill (x : ℕ) (register : List Char) (m : Measurement) : List Char :=
  if Qubit.isSet x m.qubit then register.set (register.length - 1 - m.bit) '1' else register

theorem length_fill (x : ℕ) (register : List Char) (m : Measurement) :
    (fill x register m).length = register.length := by
  unfold fill
  split
  · exact List.length_set
  · rfl

/-- **The step**: a measurement that reads a one writes it, and nothing else is written. -/
theorem getElem?_fill {register : List Char} {m : Measurement} (hm : m.bit < register.length)
    (hbit : bit < register.length) :
    (fill x register m)[register.length - 1 - bit]? =
      if m.bit = bit ∧ Qubit.isSet x m.qubit = true then some '1'
      else register[register.length - 1 - bit]? := by
  unfold fill
  by_cases hset : Qubit.isSet x m.qubit = true
  · rw [if_pos hset]
    by_cases hsame : m.bit = bit
    · rw [if_pos ⟨hsame, hset⟩, hsame, List.getElem?_set_self (by omega)]
    · rw [if_neg fun h => hsame h.1, List.getElem?_set_ne (by omega)]
  · rw [if_neg hset, if_neg fun h => hset h.2]

/-- **The run**: after a list of measurements a bit is one where some measurement into it reads a
one. -/
theorem foldl_fill (x : ℕ) {n : ℕ} {ms : List Measurement} (hms : ∀ m ∈ ms, m.bit < n) :
    (ms.foldl (fill x) (List.replicate n '0')).length = n ∧ ∀ bit < n,
      (ms.foldl (fill x) (List.replicate n '0'))[n - 1 - bit]? =
        some (if ms.any fun m => m.bit == bit && Qubit.isSet x m.qubit then '1' else '0') := by
  -- by the last measurement, which is the last one to fill a place
  induction ms using List.reverseRecOn with
  | nil =>
    refine ⟨List.length_replicate, fun bit hbit => ?_⟩
    rw [List.foldl_nil, List.getElem?_replicate, if_pos (by omega)]
    rfl
  | append_singleton ms m ih =>
    obtain ⟨hms, hm⟩ := List.forall_mem_append.1 hms
    obtain ⟨hlength, hvalue⟩ := ih hms
    rw [List.foldl_append, List.foldl_cons, List.foldl_nil]
    refine ⟨(length_fill _ _ _).trans hlength, fun bit hbit => ?_⟩
    generalize ms.foldl (fill x) (List.replicate n '0') = register at hlength hvalue ⊢
    have hstep : (fill x register m)[register.length - 1 - bit]? = _ := getElem?_fill
      (by rw [hlength]; exact hm m (List.mem_singleton_self m)) (by rw [hlength]; exact hbit)
    rw [hlength, hvalue bit hbit] at hstep
    rw [hstep, List.any_append, List.any_cons, List.any_nil, Bool.or_false]
    by_cases hone : m.bit = bit ∧ Qubit.isSet x m.qubit = true
    · simp [hone]
    · rw [if_neg hone, show (m.bit == bit && Qubit.isSet x m.qubit) = false by simpa using hone,
        Bool.or_false]

/-- **A reading is the register filled by the recorded measurements in their order.** -/
theorem toList_reading_eq_foldl (hc : ∀ m ∈ c.measurements, m.bit < c.bits) (x : ℕ) :
    (c.reading x).toList = c.measurements.foldl (fill x) (List.replicate c.bits '0') := by
  obtain ⟨hlength, hvalue⟩ := foldl_fill x hc
  rw [reading, String.toList_ofList]
  apply List.ext_getElem?
  intro i
  by_cases hi : i < c.bits
  · have hplace := hvalue (c.bits - 1 - i) (by omega)
    rw [show c.bits - 1 - (c.bits - 1 - i) = i by omega] at hplace
    rw [hplace, List.getElem?_map, List.getElem?_reverse (by simpa using hi), List.length_range,
      List.getElem?_range (by omega)]
    rfl
  · rw [List.getElem?_eq_none (by simpa using hi), List.getElem?_eq_none (by omega)]

/-! ## Characters of a reading -/

/-- The character of a classical bit in a reading, which lists the highest bit first. -/
def character? (c : Circuit α) (x bit : ℕ) : Option Char :=
  (c.reading x).toList[c.bits - 1 - bit]?

theorem character?_eq (hbit : bit < c.bits) :
    c.character? x bit = some (if c.readsOne x bit then '1' else '0') := by
  rw [character?, reading, String.toList_ofList, List.getElem?_map,
    List.getElem?_reverse (by rw [List.length_range]; omega), List.length_range,
    List.getElem?_range (by omega), show c.bits - 1 - (c.bits - 1 - bit) = bit by omega]
  rfl

theorem readsOne_iff : c.readsOne x bit = true ↔
    ∃ m ∈ c.measurements, m.bit = bit ∧ Qubit.isSet x m.qubit = true := by
  simp only [readsOne, List.any_eq_true, Bool.and_eq_true, beq_iff_eq]

theorem character?_eq_one_iff (hbit : bit < c.bits) : c.character? x bit = some '1' ↔
    ∃ m ∈ c.measurements, m.bit = bit ∧ Qubit.isSet x m.qubit = true := by
  rw [character?_eq hbit, ← readsOne_iff]
  cases c.readsOne x bit <;> simp

/-! ## The last measurement -/

/-- The measurement into a classical bit that was recorded last. -/
def lastInto? (c : Circuit α) (bit : ℕ) : Option Measurement :=
  (c.measurements.filter fun m => m.bit = bit).getLast?

/-- Some measurement into a classical bit was recorded, and the last of them reads a one. -/
def LastReadsOne (c : Circuit α) (x bit : ℕ) : Prop :=
  ∃ m, c.lastInto? bit = some m ∧ Qubit.isSet x m.qubit = true

theorem LastReadsOne.exists_mem (h : c.LastReadsOne x bit) :
    ∃ m ∈ c.measurements, m.bit = bit ∧ Qubit.isSet x m.qubit = true := by
  obtain ⟨m, hlast, hset⟩ := h
  have hmem := List.mem_filter.1 (List.mem_of_getLast? hlast)
  exact ⟨m, hmem.1, of_decide_eq_true hmem.2, hset⟩

/-- **What a bit of the register holds.** A reading is the register that the measurements fill in
their order, each by writing a one or nothing. A bit holds a one where some measurement into it
reads a one, and otherwise a zero. This is what the last measurement into the bit reads exactly
where that one reads a one or none does. -/
theorem reading_collects (c : Circuit α) (x : ℕ) :
    ((∀ m ∈ c.measurements, m.bit < c.bits) →
      (c.reading x).toList = c.measurements.foldl (fill x) (List.replicate c.bits '0')) ∧
    (c.reading x).toList.length = c.bits ∧ ∀ bit < c.bits,
      (c.character? x bit = some '1' ↔
        ∃ m ∈ c.measurements, m.bit = bit ∧ Qubit.isSet x m.qubit = true) ∧
      (c.character? x bit = some '1' ∨ c.character? x bit = some '0') ∧
      ((c.character? x bit = some '1' ↔ c.LastReadsOne x bit) ↔
        (c.LastReadsOne x bit ∨
          ∀ m ∈ c.measurements, m.bit = bit → Qubit.isSet x m.qubit = false)) := by
  refine ⟨fun hc => toList_reading_eq_foldl hc x, by simp [reading],
    fun bit hbit => ⟨character?_eq_one_iff hbit, ?_, ?_⟩⟩
  · rw [character?_eq hbit]
    split
    · exact .inl rfl
    · exact .inr rfl
  -- the two rules differ where an earlier measurement into the bit reads one and the last does not
  · rw [character?_eq_one_iff hbit]
    constructor
    · intro hlast
      by_cases hsome : c.LastReadsOne x bit
      · exact .inl hsome
      · refine .inr fun m hm hinto => ?_
        by_contra hset
        exact hsome (hlast.1 ⟨m, hm, hinto, Bool.not_eq_false _ ▸ hset⟩)
    · rintro (hsome | hnone)
      · exact ⟨fun _ => hsome, LastReadsOne.exists_mem⟩
      · refine ⟨?_, LastReadsOne.exists_mem⟩
        rintro ⟨m, hm, hinto, hset⟩
        rw [hnone m hm hinto] at hset
        cases hset

/-- Two qubits, of which the first is flipped, measured one after the other into one bit. -/
def measuredTwice : Circuit Float :=
  Operation.run [.append (.given (Gate.plain .x [0])), .measure 0 0, .measure 1 0] (blank 2 1)

theorem reading_collects_measuredTwice :
    measuredTwice.measurements = [⟨0, 0⟩, ⟨1, 0⟩] ∧
      (measuredTwice.reading 1).toList = [⟨0, 0⟩, ⟨1, 0⟩].foldl (fill 1) ['0'] ∧
      measuredTwice.character? 1 0 = some '1' := by
  obtain ⟨hfilled, -, hbits⟩ := reading_collects measuredTwice 1
  have hone := (hbits 0 (by decide)).1
  exact ⟨rfl, hfilled (by decide), hone.2 ⟨⟨0, 0⟩, List.mem_cons_self, rfl, rfl⟩⟩

/-- The last measurement into the bit reads a zero, and the bit holds a one. -/
theorem not_holds_last : ¬ ∀ (c : Circuit Float) (x bit : ℕ), bit < c.bits →
    (c.character? x bit = some '1' ↔ c.LastReadsOne x bit) := by
  intro h
  obtain ⟨m, hlast, hset⟩ := (h measuredTwice 1 0 (by decide)).1 rfl
  obtain rfl : (⟨1, 0⟩ : Measurement) = m := Option.some.inj hlast
  exact absurd hset (by decide)

end QuantumWorkbench.Circuit
