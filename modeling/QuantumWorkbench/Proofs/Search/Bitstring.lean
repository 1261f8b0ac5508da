import Mathlib
import QuantumWorkbench.Proofs.Search.Annealing
import QuantumWorkbench.Proofs.Search.Scoring
import QuantumWorkbench.Proofs.Simulation
import QuantumWorkbench.Proofs.State.Drawing

/-!
# Strings of bits

The bit order is turned over wherever bits become a string or are taken back from one: a reading
lists the classical bits from the highest down, a solution its variables from the last one, and a
string is read from its last character. Where every qubit is measured into the bit of its number
these turns cancel, so character, classical bit, variable and bit of the basis index agree.
-/

namespace QuantumWorkbench

/-! ## Bits written and read -/

namespace Solution

/-- The string of a list of bits, the last bit first. -/
def digits (bs : List Bool) : String :=
  String.ofList (bs.reverse.map fun b => if b then '1' else '0')

theorem bitsOfString?_digits (bs : List Bool) :
    bitsOfString? (digits bs) = some (bs.map Bool.toNat) := by
  rw [bitsOfString?, digits, String.toList_ofList, ← List.map_reverse, List.reverse_reverse]
  exact mapM_bitOfChar? bs

theorem bitstring_map_toNat {α : Type} (bs : List Bool) (energy : α) :
    bitstring ⟨bs.map Bool.toNat, energy⟩ = digits bs := by
  rw [bitstring, digits, ← List.map_reverse, List.map_map]
  congr 2
  funext b
  cases b <;> rfl

/-- A list of zeros and ones is a list of bits. -/
theorem exists_eq_map_toNat {bits : List ℕ} (hbits : Qubo.IsAssignment bits) :
    ∃ bs : List Bool, bits = bs.map Bool.toNat := by
  refine ⟨bits.map fun b => decide (b = 1), ?_⟩
  rw [List.map_map, List.map_congr_left (g := id), List.map_id]
  intro b hb
  have hlt : b < 2 := hbits b hb
  interval_cases b <;> rfl

/-- A string of zeros and ones is the string of a list of bits. -/
theorem exists_eq_digits {text : String} (htext : ∀ ch ∈ text.toList, ch = '0' ∨ ch = '1') :
    ∃ bs, text = digits bs := by
  refine ⟨(text.toList.map fun ch => decide (ch = '1')).reverse, ?_⟩
  rw [digits, List.reverse_reverse, List.map_map, List.map_congr_left (g := id), List.map_id,
    String.ofList_toList]
  intro ch hch
  rcases htext ch hch with rfl | rfl <;> rfl

/-- **A string of zeros and ones**, read as an assignment and written again, is the same. -/
theorem bitstring_of_bitsOfString? {α : Type} {text : String}
    (htext : ∀ ch ∈ text.toList, ch = '0' ∨ ch = '1') :
    ∃ bits, bitsOfString? text = some bits ∧ Qubo.IsAssignment bits ∧
      ∀ energy : α, bitstring ⟨bits, energy⟩ = text := by
  obtain ⟨bs, rfl⟩ := exists_eq_digits htext
  refine ⟨_, bitsOfString?_digits bs, fun b hb => ?_, bitstring_map_toNat bs⟩
  obtain ⟨bit, -, rfl⟩ := List.mem_map.1 hb
  exact Bool.toNat_lt bit

/-- **An assignment** written as a string and read again is the same. -/
theorem bitsOfString?_bitstring {α : Type} {bits : List ℕ} (hbits : Qubo.IsAssignment bits)
    (energy : α) : bitsOfString? (bitstring ⟨bits, energy⟩) = some bits := by
  obtain ⟨bs, rfl⟩ := exists_eq_map_toNat hbits
  rw [bitstring_map_toNat, bitsOfString?_digits]

/-- The bits of an index, the lowest first, each by a shift in a word. -/
def shiftedBits (index width : ℕ) : List ℕ :=
  (List.range width).map fun k => (Qubit.isSet index k).toNat

/-- Up to the length of a word the shifts are those of the exhaustive search. -/
theorem shiftedBits_eq {index width : ℕ} (hwidth : width ≤ 64) :
    shiftedBits index width = bitsOfIndex index width := by
  apply List.ext_getElem?
  intro k
  rw [getElem?_bitsOfIndex, shiftedBits, List.getElem?_map]
  by_cases hk : k < width
  · rw [List.getElem?_range hk, if_pos hk, Option.map_some,
      Qubit.isSet_of_lt index (hk.trans_le hwidth), Nat.toNat_testBit, Nat.shiftRight_eq_div_pow]
  · rw [List.getElem?_eq_none (by simpa using hk), if_neg hk]
    rfl

end Solution

/-! ## Indices drawn by a run -/

section

variable {α σ : Type} [Scalar α]

namespace Circuit

/-- A simulated state has as many amplitudes as its register has basis states. -/
theorem dimension_of_state [AmplitudeStore α] {c : Circuit α} {limit : ℕ} {s : StateVector α}
    (h : c.state limit = .ok s) : s.dimension = Qubit.dimension c.width := by
  -- the vector that is measured has the length of the first basis vector
  obtain ⟨-, rfl⟩ := StateVector.ofAmplitudes_eq_ok_iff.1 (ofAmplitudes_of_state h)
  exact (size_actAll _ _).trans (StateVector.size_amplitudes_basis c.width 0)

theorem drawIndex_lt {sums : Array α} (hsums : 0 < sums.size) (source : Random.Source σ α) (s : σ) :
    (drawIndex sums source s).1 < sums.size := by
  show min _ (sums.size - 1) < sums.size
  omega

/-- **What a run counts**: the readings of basis indices of the register, one for each shot. -/
theorem counts_of_run [AmplitudeStore α] {c : Circuit α} {limit shots : ℕ}
    {source : Random.Source σ α} {s s' : σ} {run : Run α}
    (h : c.run limit shots source s = .ok (run, s')) :
    ∃ indices : List ℕ, (∀ x ∈ indices, x < Qubit.dimension c.width) ∧
      run.counts = Histogram.ofReadings (indices.map c.reading) := by
  obtain ⟨state, hstate, h⟩ := bind_eq_ok.1 h
  split_ifs at h
  · obtain ⟨rfl, -⟩ := Prod.mk.inj (Except.ok.inj h)
    exact ⟨[], List.forall_mem_nil _, rfl⟩
  · obtain ⟨rfl, -⟩ := Prod.mk.inj (Except.ok.inj h)
    have hsize : state.cumulative.size = Qubit.dimension c.width :=
      state.size_cumulative.trans (dimension_of_state hstate)
    have hpos : 0 < state.cumulative.size := by
      rw [hsize, Qubit.dimension, Nat.one_shiftLeft]
      exact Nat.two_pow_pos _
    refine ⟨(Random.draws (drawIndex state.cumulative source) shots s).1, ?_, ?_⟩
    · rw [← hsize]
      exact Random.forall_draws (drawIndex_lt hpos source) shots s
    · exact congrArg Histogram.ofReadings (c.readings_eq_map _)

/-! ## Readings of fully measured circuits -/

/-- The measurements of a circuit are those of all qubits, each into the classical bit of its
number, and no others. -/
structure MeasuresEach (c : Circuit α) : Prop where
  bits : c.bits = c.width
  measurements : c.measurements = (blank c.width c.bits : Circuit α).measureAll.measurements

/-- Measuring all qubits where nothing was measured before. -/
theorem measuresEach_measureAll {c : Circuit α} (hbits : c.bits = c.width)
    (hnone : c.measurements = []) : c.measureAll.MeasuresEach :=
  ⟨hbits, by simp only [measureAll, hnone, blank]⟩

theorem MeasuresEach.readsOne {c : Circuit α} (hc : c.MeasuresEach) (x : ℕ) {q : ℕ}
    (hq : q < c.width) : c.readsOne x q = Qubit.isSet x q := by
  have hmeasured : c.measurements = (List.range c.width).map fun q => ⟨q, q⟩ := by
    rw [hc.measurements, measureAll, blank, hc.bits, Nat.min_self]
    rfl
  rw [Circuit.readsOne, hmeasured, List.any_map, Bool.eq_iff_iff]
  simp only [List.any_eq_true, List.mem_range, Function.comp_apply, Bool.and_eq_true, beq_iff_eq]
  constructor
  · rintro ⟨k, -, rfl, hset⟩
    exact hset
  · exact fun hset => ⟨q, hq, rfl, hset⟩

omit [Scalar α] in
theorem isBinary_reading (c : Circuit α) (x : ℕ) :
    ∀ ch ∈ (c.reading x).toList, ch = '0' ∨ ch = '1' := by
  intro ch hch
  rw [reading, String.toList_ofList] at hch
  obtain ⟨bit, -, rfl⟩ := List.mem_map.1 hch
  split
  · exact .inr rfl
  · exact .inl rfl

/-- The reading of an index, taken back as an assignment, has the bits of the index. -/
theorem MeasuresEach.bitsOfString?_reading {c : Circuit α} (hc : c.MeasuresEach) (x : ℕ) :
    Solution.bitsOfString? (c.reading x) = some (Solution.shiftedBits x c.width) := by
  rw [Circuit.bitsOfString?_reading, hc.bits, Solution.shiftedBits]
  congr 1
  apply List.map_congr_left
  intro q hq
  rw [hc.readsOne x (List.mem_range.1 hq)]

/-- **A measured string means the same everywhere** in a circuit whose measurements are those of all
qubits. The reading of a basis index, taken back, is the list of the bits of the index, which is the
assignment of that index; written again, it is the reading; and what a run counts are readings of
basis indices. Reading and writing are inverse to each other on all strings of zeros and ones and on
all lists of zeros and ones. -/
theorem reading_means_index [AmplitudeStore α] {c : Circuit α} (hc : c.MeasuresEach) :
    (∀ x, ∃ bits, Solution.bitsOfString? (c.reading x) = some bits ∧ bits.length = c.width ∧
      (∀ q < c.width, bits[q]? = some (Qubit.isSet x q).toNat) ∧
      (c.width ≤ 64 → bits = Solution.bitsOfIndex x c.width) ∧
      ∀ energy : α, Solution.bitstring ⟨bits, energy⟩ = c.reading x) ∧
    (∀ (limit shots : ℕ) (source : Random.Source σ α) (s s' : σ) (run : Run α),
      c.run limit shots source s = .ok (run, s') →
        ∃ indices : List ℕ, (∀ x ∈ indices, x < Qubit.dimension c.width) ∧
          run.counts = Histogram.ofReadings (indices.map c.reading)) ∧
    (∀ text : String, (∀ ch ∈ text.toList, ch = '0' ∨ ch = '1') →
      ∃ bits, Solution.bitsOfString? text = some bits ∧ Qubo.IsAssignment bits ∧
        ∀ energy : α, Solution.bitstring ⟨bits, energy⟩ = text) ∧
    ∀ bits, Qubo.IsAssignment bits → ∀ energy : α,
      Solution.bitsOfString? (Solution.bitstring ⟨bits, energy⟩) = some bits := by
  refine ⟨fun x => ⟨_, hc.bitsOfString?_reading x, ?_, fun q hq => ?_, Solution.shiftedBits_eq,
    fun energy => ?_⟩, fun _ _ _ _ _ _ => counts_of_run,
    fun _ => Solution.bitstring_of_bitsOfString?, fun _ => Solution.bitsOfString?_bitstring⟩
  · rw [Solution.shiftedBits, List.length_map, List.length_range]
  · rw [Solution.shiftedBits, List.getElem?_map, List.getElem?_range hq]
    rfl
  · -- the reading is a string of zeros and ones, so nothing else is written in its place
    obtain ⟨bits, hbits, -, hwritten⟩ :=
      Solution.bitstring_of_bitsOfString? (α := α) (c.isBinary_reading x)
    rw [hc.bitsOfString?_reading] at hbits
    rw [Option.some.inj hbits, hwritten]

/-- Three qubits, of which the first is flipped, measured into three bits. -/
def flippedFirst : Circuit Float := ((blank 3 3).appendGates [Gate.plain .x [0]]).measureAll

theorem reading_means_index_flippedFirst : flippedFirst.MeasuresEach ∧
    flippedFirst.reading 1 = "001" ∧ Solution.bitsOfString? "001" = some [1, 0, 0] ∧
    Solution.bitsOfIndex 1 3 = [1, 0, 0] ∧ Solution.bitstring ⟨[1, 0, 0], (0 : Float)⟩ = "001" := by
  have hc : flippedFirst.MeasuresEach := measuresEach_measureAll rfl rfl
  have hkey : flippedFirst.reading 1 = "001" := rfl
  obtain ⟨bits, hread, -, -, hindex, hwritten⟩ := (reading_means_index (σ := Unit) hc).1 1
  rw [hkey] at hread hwritten
  obtain rfl := hindex (by decide)
  exact ⟨hc, hkey, hread, rfl, hwritten 0⟩

end Circuit

end

end QuantumWorkbench
