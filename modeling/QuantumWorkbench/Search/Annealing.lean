import QuantumWorkbench.Random.Source
import QuantumWorkbench.Search.Solution

/-!
# Simulated annealing

A random walk over assignments that flips one variable at a time. A flip that does not raise the
objective is taken; one that raises it is taken with a probability that falls with the rise and with
the temperature. The temperature is lowered after as many proposals as there are variables. The best
assignment of each read is kept.
-/

namespace QuantumWorkbench.Annealing

variable {α σ : Type} [Scalar α]

/-- The schedule of annealing. -/
structure Schedule (α : Type) where
  reads : Nat
  steps : Nat
  temperature : α
  cooling : α

/-- Ten reads of a thousand steps from temperature one, cooled by a twentieth. -/
def Schedule.standard : Schedule α := ⟨10, 1000, 1, Scalar.num 95 / Scalar.num 100⟩

/-- Refuses a schedule without reads, one that does not start warm, and one that does not cool by a
factor above zero and at most one. -/
def Schedule.check (s : Schedule α) : Except (TaskError α) Unit :=
  if s.reads = 0 then .error .noReads
  else if ¬ 0 < s.temperature then .error .badTemperature
  else if ¬ (0 < s.cooling ∧ s.cooling ≤ 1) then .error .badCooling
  else .ok ()

/-- A walk: the current assignment with its running objective, the best so far, the temperature, and
the source of draws. -/
structure Walk (α σ : Type) where
  bits : List Nat
  energy : α
  best : Solution α
  temperature : α
  source : σ

/-- The assignment with one variable flipped. -/
def flip (bits : List Nat) (k : Nat) : List Nat := bits.modify k fun b => if b = 0 then 1 else 0

/-- The start of a walk: a drawn bit for each variable. -/
def start (q : Qubo α) (n : Nat) (source : Random.Source σ α) (temperature : α) (s : σ) :
    Walk α σ :=
  let (bits, s) := Random.draws source.bit n s
  let energy := q.evaluate bits
  ⟨bits, energy, ⟨bits, energy⟩, temperature, s⟩

/-- Whether a change of the objective is accepted. Only a rise takes a draw. -/
def accept (source : Random.Source σ α) (temperature delta : α) (s : σ) : Bool × σ :=
  if delta ≤ 0 then (true, s)
  else
    let (r, s) := source.unit s
    (r < Scalar.exp (-delta / temperature), s)

/-- Takes a flip of a variable. -/
def Walk.take (w : Walk α σ) (k : Nat) (delta : α) : Walk α σ :=
  let bits := flip w.bits k
  let energy := w.energy + delta
  { w with
    bits, energy
    best := if energy < w.best.energy then ⟨bits, energy⟩ else w.best }

/-- One proposal: a variable is drawn, and its flip is taken or not. -/
def propose (q : Qubo α) (n : Nat) (source : Random.Source σ α) (w : Walk α σ) : Walk α σ :=
  let (k, s) := source.below n w.source
  let delta := q.flipDelta w.bits k
  let (accepted, s) := accept source w.temperature delta s
  let w := { w with source := s }
  if accepted then w.take k delta else w

/-- The temperature after a proposal, lowered when each variable has had its turn once more. -/
def Walk.cool (w : Walk α σ) (n step : Nat) (cooling : α) : Walk α σ :=
  if (step + 1) % n = 0 then { w with temperature := w.temperature * cooling } else w

/-- A walk of a number of steps. -/
def walk (q : Qubo α) (n : Nat) (source : Random.Source σ α) (schedule : Schedule α) (s : σ) :
    Walk α σ :=
  (List.range schedule.steps).foldl
    (fun w step => (propose q n source w).cool n step schedule.cooling)
    (start q n source schedule.temperature s)

/-- The best assignment of one read, with its objective computed anew. -/
def read (q : Qubo α) (n : Nat) (source : Random.Source σ α) (schedule : Schedule α) (s : σ) :
    Solution α :=
  let best := (walk q n source schedule s).best
  ⟨best.bits, q.evaluate best.bits⟩

/-- The best assignments of all reads, the lowest objective first. Each read starts from a state of
its own. -/
def sample (q : Qubo α) (source : Random.Source σ α) (schedule : Schedule α) (seed : Nat → σ) :
    Except (TaskError α) (List (Solution α)) := do
  schedule.check
  let n := q.width
  if n = 0 then .error .noVariables
  else if !Storage.holdsSolutions schedule.reads then .error (.noStorage schedule.reads)
  else if !Storage.holdsBytes n then .error (.noStorage n)
  else
    let reads := (List.range schedule.reads).map fun k => read q n source schedule (seed k)
    return reads.mergeSort fun a b => Scalar.atMost a.energy b.energy

end QuantumWorkbench.Annealing
