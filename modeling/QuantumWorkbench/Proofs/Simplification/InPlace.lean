import QuantumWorkbench.Proofs.Simplification.Fusing
import QuantumWorkbench.Proofs.SortedMap
import QuantumWorkbench.Simplification.Pass

/-!
# Fusing in place

Fusing gate by gate, with all that is written down on the way: what has been put out, what is held
back, and the list itself. A merge that fails ends the work in the middle. No gate that is treated
writes to the list, which takes the result in the end, so a list over which the work ends early is
as it was before.
-/

namespace QuantumWorkbench.Simplification

open Gate

variable {α : Type}

/-- The list that is to be fused, what has been put out so far, and what is held back. -/
structure Bench (α : Type) where
  gates : List (Gate α)
  fused : List (Gate α)
  pending : Pending α

namespace Bench

/-- The bench before the first gate. -/
def start (gates : List (Gate α)) : Bench α := ⟨gates, [], .empty⟩

/-- Holds a rotation back at a qubit. -/
def hold (b : Bench α) (q : Nat) (g : Gate α) : Bench α := { b with pending := b.pending.insert q g }

/-- Takes the rotation at a qubit out of those held back. -/
def letGo (b : Bench α) (q : Nat) : Bench α := { b with pending := b.pending.erase q }

/-- Puts out gates. -/
def putOut (b : Bench α) (gs : List (Gate α)) : Bench α := { b with fused := b.fused ++ gs }

/-- Puts out all that is held back. -/
def putOutAll (b : Bench α) : Bench α := { b.putOut b.pending.values with pending := .empty }

variable [Scalar α]

/-- Treats one gate. What was written before an error stays written. -/
def take (b : Bench α) (g : Gate α) : Except (CircuitError α) Unit × Bench α :=
  if g.isRotation then
    let q := g.qubits.headD 0
    match b.pending.get? q with
    | some held =>
      if held.kind = g.kind then
        match mergeRotations held g with
        | .ok merged => (.ok (), (b.letGo q).hold q merged)
        | .error e => (.error e, b.letGo q)
      else (.ok (), ((b.letGo q).putOut [held]).hold q g)
    | none => (.ok (), b.hold q g)
  else (.ok (), b.putOutAll.putOut [g])

/-- Treats gates one after another, up to the first error. -/
def takeAll (b : Bench α) : List (Gate α) → Except (CircuitError α) Unit × Bench α
  | [] => (.ok (), b)
  | g :: gs =>
    match b.take g with
    | (.ok _, b) => b.takeAll gs
    | (.error e, b) => (.error e, b)

end Bench

variable [Scalar α]

/-- Fuses a list in place: the answer tells whether anything changed, and beside it stands the list
as it is left. The list is written in one go, after the last gate. -/
def fuseInPlace (gates : List (Gate α)) : Except (CircuitError α) Bool × List (Gate α) :=
  match (Bench.start gates).takeAll gates with
  | (.ok _, b) =>
    let b := b.putOutAll
    (.ok (b.fused != b.gates), b.fused)
  | (.error e, b) => (.error e, b.gates)

/-- What is left of an attempt to change a list as a whole: the new list, or the old one with the
reason. -/
def settleList (gates : List (Gate α)) :
    Except (CircuitError α) (List (Gate α) × Bool) → Except (CircuitError α) Bool × List (Gate α)
  | .ok (gates', changed) => (.ok changed, gates')
  | .error e => (.error e, gates)

namespace Bench

/-! ## The list -/

/-- **The step**: a gate that is treated leaves the list as it is, also where it is refused. -/
theorem gates_take (b : Bench α) (g : Gate α) : (b.take g).2.gates = b.gates := by
  simp only [take]
  split
  · split
    · split
      · -- the merge succeeds or fails
        split <;> rfl
      · rfl
    · rfl
  · rfl

/-- **The run**: so do all of them. -/
theorem gates_takeAll (b : Bench α) (gs : List (Gate α)) : (b.takeAll gs).2.gates = b.gates := by
  induction gs generalizing b with
  | nil => rfl
  | cons g gs ih =>
    have hstep := b.gates_take g
    unfold takeAll
    split
    · next heq =>
      rw [heq] at hstep
      exact (ih _).trans hstep
    · next heq =>
      rw [heq] at hstep
      exact hstep

/-! ## The result -/

omit [Scalar α] in
theorem insert_erase (pending : Pending α) (q : Nat) (g : Gate α) :
    (pending.erase q).insert q g = pending.insert q g := by
  apply SortedMap.ext_get?
  intro p
  by_cases hp : p = q
  · simp [hp]
  · rw [SortedMap.get?_insert_of_ne _ hp, SortedMap.get?_insert_of_ne _ hp,
      SortedMap.get?_erase_of_ne _ hp]

/-- What a row of gates leads to: the reason of an error, or all that is put out in the end. -/
def outcome (treated : Except (CircuitError α) Unit × Bench α) :
    Except (CircuitError α) (List (Gate α)) := treated.1.map fun _ => treated.2.putOutAll.fused

/-- **The step**: what has been put out and what fusing makes of the rest stay the same together. -/
theorem fuseFrom_take (b : Bench α) (g : Gate α) (gs : List (Gate α)) :
    (fuseFrom b.pending (g :: gs)).map (b.fused ++ ·) =
      (b.take g).1.bind fun _ => (fuseFrom (b.take g).2.pending gs).map ((b.take g).2.fused ++ ·) := by
  cases hr : g.isRotation with
  | false =>
    have htake : b.take g = (.ok (), b.putOutAll.putOut [g]) := by simp [take, hr]
    simp only [htake, fuseFrom_release hr, putOutAll, putOut, Except.bind]
    cases fuseFrom .empty gs <;> simp [Except.map]
  | true =>
    cases hget : b.pending.get? (g.qubits.headD 0) with
    | none =>
      have htake : b.take g = (.ok (), b.hold (g.qubits.headD 0) g) := by
        simp only [take, hr, hget, if_true]
      simp only [htake, fuseFrom, hr, hget, if_true]
      rfl
    | some held =>
      by_cases hkind : held.kind = g.kind
      · cases hmerged : mergeRotations held g with
        | error e =>
          -- the merge that fails ends both
          have htake : b.take g = (.error e, b.letGo (g.qubits.headD 0)) := by
            simp only [take, hr, hget, hkind, hmerged, if_true]
          simp only [htake, fuseFrom, hr, hget, hkind, hmerged, if_true]
          rfl
        | ok merged =>
          have htake : b.take g =
              (.ok (), (b.letGo (g.qubits.headD 0)).hold (g.qubits.headD 0) merged) := by
            simp only [take, hr, hget, hkind, hmerged, if_true]
          simp only [htake, fuseFrom, hr, hget, hkind, hmerged, if_true, letGo, hold, insert_erase]
          rfl
      · have htake : b.take g = (.ok (),
            ((b.letGo (g.qubits.headD 0)).putOut [held]).hold (g.qubits.headD 0) g) := by
          simp only [take, hr, hget, hkind, if_true, if_false]
        simp only [htake, fuseFrom, hr, hget, hkind, if_true, if_false, letGo, hold, putOut,
          insert_erase, Except.bind]
        cases fuseFrom (b.pending.insert (g.qubits.headD 0) g) gs <;>
          simp [Except.map, bind, Except.bind, pure, Except.pure]

/-- **The run**: gate by gate the bench comes to what fusing makes of the list as a whole. -/
theorem outcome_takeAll (b : Bench α) (gs : List (Gate α)) :
    outcome (b.takeAll gs) = (fuseFrom b.pending gs).map (b.fused ++ ·) := by
  induction gs generalizing b with
  | nil => rfl
  | cons g gs ih =>
    rw [fuseFrom_take, takeAll]
    obtain ⟨answer, b'⟩ := b.take g
    cases answer with
    | error e => rfl
    | ok => exact ih b'

end Bench

/-- **Fusing in place leaves the fused list or, after an error, the list as it was.** -/
theorem fuseInPlace_eq (gates : List (Gate α)) :
    fuseInPlace gates = settleList gates (Pass.fuse.apply gates) := by
  have hgates := (Bench.start gates).gates_takeAll gates
  have houtcome := (Bench.start gates).outcome_takeAll gates
  have hstart : (fuseFrom (Bench.start gates).pending gates).map ((Bench.start gates).fused ++ ·) =
      fuse gates := by
    change (fuse gates).map ([] ++ ·) = fuse gates
    cases fuse gates <;> rfl
  have happly : Pass.fuse.apply gates = (fuse gates).map fun fused => (fused, fused != gates) := by
    rw [Pass.apply]
    cases fuse gates <;> rfl
  rw [happly, ← hstart, ← houtcome, fuseInPlace]
  generalize (Bench.start gates).takeAll gates = treated at hgates
  obtain ⟨answer, b⟩ := treated
  cases answer with
  | error e => exact Prod.ext rfl hgates
  | ok =>
    have hsame : b.putOutAll.gates = gates := hgates
    simp [Bench.outcome, settleList, Except.map, hsame]

end QuantumWorkbench.Simplification
