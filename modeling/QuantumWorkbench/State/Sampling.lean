import QuantumWorkbench.Bisection
import QuantumWorkbench.Random.Source
import QuantumWorkbench.State.Simulation

/-!
# Sampling measurements

A run of a circuit draws basis indices by their weights and reads each through the recorded
measurements into a string of classical bits, highest bit first. A circuit without measurements
gives no outcomes.
-/

namespace QuantumWorkbench

/-- How often each string of classical bits was read. -/
abbrev Histogram := SortedMap String Nat

/-- Counts one more reading. -/
def Histogram.tally (h : Histogram) (reading : String) : Histogram :=
  h.update reading fun old => old.getD 0 + 1

/-- The histogram of a list of readings. -/
def Histogram.ofReadings (readings : List String) : Histogram :=
  SortedMap.empty.updateAll (fun old _ => old.getD 0 + 1) (readings.map fun r => (r, ()))

theorem Histogram.ofReadings_eq_foldl (readings : List String) :
    ofReadings readings = readings.foldl tally SortedMap.empty := by
  rw [ofReadings, SortedMap.updateAll_eq_foldl, List.foldl_map]
  rfl

/-! ## Reading an index -/

/-- Whether some measurement into a classical bit reads a one from a basis index. -/
def Circuit.readsOne {α : Type} (c : Circuit α) (index bit : Nat) : Bool :=
  c.measurements.any fun m => m.bit == bit && Qubit.isSet index m.qubit

/-- The classical bits that a basis index is read as, highest bit first. -/
def Circuit.reading {α : Type} (c : Circuit α) (index : Nat) : String :=
  String.ofList <| (List.range c.bits).reverse.map fun bit =>
    if c.readsOne index bit then '1' else '0'

/-- The qubits that are read into each classical bit, highest bit first. -/
def Circuit.sources {α : Type} (c : Circuit α) : List (List Nat) :=
  (List.range c.bits).reverse.map fun bit =>
    (c.measurements.filter fun m => m.bit == bit).map fun m => m.qubit

/-- The classical bits that a basis index is read as through the qubits of each. -/
def readThrough (sources : List (List Nat)) (index : Nat) : String :=
  String.ofList <| sources.map fun qubits => if qubits.any (Qubit.isSet index) then '1' else '0'

theorem Circuit.readThrough_sources {α : Type} (c : Circuit α) (index : Nat) :
    readThrough c.sources index = c.reading index := by
  simp only [readThrough, sources, reading, readsOne, List.map_map, Function.comp_def,
    List.any_map, List.any_filter]
  rfl

/-- The readings of a list of basis indices. -/
def Circuit.readings {α : Type} (c : Circuit α) (indices : List Nat) : List String :=
  if indices.isEmpty then [] else
    let sources := c.sources
    indices.map (readThrough sources)

theorem Circuit.readings_eq_map {α : Type} (c : Circuit α) (indices : List Nat) :
    c.readings indices = indices.map c.reading := by
  cases indices <;> simp [readings, c.readThrough_sources]

/-! ## Drawing indices -/

namespace StateVector

variable {α : Type} [Scalar α]

/-- The running sums of the weights of a state. -/
@[specialize] def cumulative (s : StateVector α) : Array α :=
  s.amplitudes.foldl (fun sums a => sums.push (sums.back?.getD 0 + a.probability))
    (.emptyWithCapacity s.dimension)

/-- Each running sum adds one weight to the sum before it. -/
theorem toList_cumulative (s : StateVector α) :
    s.cumulative.toList = (s.weights.scanl (· + ·) 0).tail := by
  -- the sums so far enter through the last of them only
  have hpush : ∀ (zs : List (Amplitude α)) (sums : Array α),
      (zs.foldl (fun sums a => sums.push (sums.back?.getD 0 + a.probability)) sums).toList =
        sums.toList ++
          ((zs.map Amplitude.probability).scanl (· + ·) (sums.back?.getD 0)).tail := by
    intro zs
    induction zs with
    | nil => intro sums; simp
    | cons z zs ih =>
      intro sums
      rw [List.foldl_cons, ih]
      cases zs <;> simp
  rw [cumulative, ← Array.foldl_toList, hpush]
  rfl

/-- The position that a point falls on: the first whose running sum exceeds it, and at most the
last. -/
@[specialize] def locate (sums : Array α) (point : α) : Nat :=
  min (Bisection.boundary (fun k => sums.getD k 0 ≤ point) 0 sums.size) (sums.size - 1)

end StateVector

namespace Circuit

variable {α σ : Type} [Scalar α]

/-- The number of shots unless another is chosen. -/
def defaultShots : Nat := 1024

/-- Draws a basis index: a unit scalar is scaled by the total weight and located among the running
sums. -/
def drawIndex (sums : Array α) (source : Random.Source σ α) (s : σ) : Nat × σ :=
  let (r, s) := source.unit s
  (StateVector.locate sums (r * sums.back?.getD 0), s)

/-- The histogram of a number of shots. -/
def sample (c : Circuit α) (sums : Array α) (source : Random.Source σ α) (shots : Nat) (s : σ) :
    Histogram × σ :=
  let (indices, s) := Random.draws (drawIndex sums source) shots s
  (.ofReadings (c.readings indices), s)

/-- The final state of a run with its histogram. -/
structure Run (α : Type) where
  state : StateVector α
  counts : Histogram
  shots : Nat

/-- Runs a circuit: its state, and a number of shots where it measures. The bits of a reading must
fit into storage. -/
@[specialize] def run [AmplitudeStore α] (c : Circuit α) (limit shots : Nat)
    (source : Random.Source σ α) (s : σ) : Except StateError (Run α × σ) := do
  let state ← c.state limit
  if c.measurements.isEmpty then return (⟨state, .empty, shots⟩, s)
  else if 0 < shots && !Storage.holdsBytes c.bits then .error (.noStorage c.bits)
  else
    let (counts, s) := c.sample state.cumulative source shots s
    return (⟨state, counts, shots⟩, s)

end Circuit

/-- The string read most often; of several the first in order. -/
def Histogram.mostFrequent (h : Histogram) : Option String :=
  (h.entries.foldl (fun (best : Option (String × Nat)) e =>
    match best with
    | some b => if b.2 < e.2 then some e else some b
    | none => some e) none).map Prod.fst

end QuantumWorkbench
