import QuantumWorkbench.Search.Solution

/-!
# Scoring measured strings

The strings of a histogram as assignments of a problem: the best among them, and the mean objective
by how often each was read. Strings with other characters than zero and one are left out.
-/

namespace QuantumWorkbench.Problem

variable {α : Type} [Scalar α]

/-- An assignment that was read a number of times. -/
structure Sample (α : Type) where
  solution : Solution α
  count : Nat

/-- A string and its count as a sample. -/
def sample? (p : Problem α) (reading : String × Nat) : Option (Sample α) :=
  (Solution.bitsOfString? reading.1).map fun bits => ⟨⟨bits, p.evaluate bits⟩, reading.2⟩

/-- Whether a sample goes before another: a lower objective, or an equal one that was read more
often. -/
def Sample.beats (a b : Sample α) : Bool :=
  Scalar.before a.solution.energy b.solution.energy ||
    (Scalar.sameRank a.solution.energy b.solution.energy && b.count < a.count)

/-- The best of a list of samples, the first of equally good ones. -/
def bestOf (samples : List (Sample α)) : Option (Sample α) :=
  samples.foldl (fun best s =>
    match best with
    | some b => if s.beats b then some s else some b
    | none => some s) none

/-- The best assignment in a histogram. -/
def best (p : Problem α) (h : Histogram) : Option (Sample α) :=
  bestOf (h.entries.filterMap p.sample?)

/-- The mean objective of a histogram. The number of readings is a 64-bit count; without any the
mean is zero. -/
def expected (p : Problem α) (h : Histogram) : α :=
  let samples := h.entries.filterMap p.sample?
  let total := Index.wrap (samples.foldl (fun n s => n + s.count) 0)
  let weighted := samples.foldl (fun acc s => acc + s.solution.energy * Scalar.num s.count) 0
  if total = 0 then 0 else weighted / Scalar.num total

end QuantumWorkbench.Problem
