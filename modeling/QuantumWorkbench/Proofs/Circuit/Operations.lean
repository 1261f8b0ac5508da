import Mathlib.Data.List.Nodup
import QuantumWorkbench.Circuit.Operation
import QuantumWorkbench.Proofs.Gate.Construction

/-!
# Operations on circuits, one by one and in a row

Carried out in place, an operation leaves the circuit that it makes as a whole, or it is refused and
has written nothing. From what a single operation can do follows what any row of operations keeps:
the books of a circuit agree with the gates, measurements and passes it holds.
-/

namespace QuantumWorkbench.Circuit

variable {α : Type}

/-! ## Changes in place -/

namespace Change

section

variable {β γ : Type}

theorem exec_bind (x : Change α β) (f : β → Change α γ) (c : Circuit α) :
    (x >>= f).exec c =
      match x.exec c with
      | (.ok b, c') => (f b).exec c'
      | (.error e, c') => (.error e, c') := by
  show StateT.run (ExceptT.run (x >>= f)) c = _
  rw [ExceptT.run_bind, StateT.run_bind]
  rcases hx : (StateT.run (ExceptT.run x) c : Id _) with ⟨b | e, c'⟩ <;>
    simp [exec, hx] <;> rfl

@[simp] theorem exec_pure (b : β) (c : Circuit α) : (pure b : Change α β).exec c = (.ok b, c) := rfl

@[simp] theorem exec_get (c : Circuit α) : (get : Change α (Circuit α)).exec c = (.ok c, c) := rfl

@[simp] theorem exec_modify (f : Circuit α → Circuit α) (c : Circuit α) :
    (modify f : Change α PUnit).exec c = (.ok (), f c) := rfl

@[simp] theorem exec_throw (e : CircuitError α) (c : Circuit α) :
    (throw e : Change α β).exec c = (.error e, c) := rfl

@[simp] theorem exec_ofExcept (x : Except (CircuitError α) β) (c : Circuit α) :
    (MonadExcept.ofExcept x : Change α β).exec c = (x, c) := by
  cases x <;> rfl

theorem exec_forM_cons (f : β → Change α PUnit) (b : β) (bs : List β) (c : Circuit α) :
    ((b :: bs).forM f).exec c =
      match (f b).exec c with
      | (.ok _, c') => (bs.forM f).exec c'
      | (.error e, c') => (.error e, c') := by
  rw [List.forM, exec_bind]
  rcases (f b).exec c with ⟨_ | _, _⟩ <;> rfl

/-- A loop over changes that are never refused folds what they write. -/
theorem exec_forM {f : β → Change α PUnit} {write : Circuit α → β → Circuit α}
    (hf : ∀ b c, (f b).exec c = (.ok (), write c b)) (bs : List β) (c : Circuit α) :
    (bs.forM f).exec c = (.ok (), bs.foldl write c) := by
  induction bs generalizing c with
  | nil => rfl
  | cons b bs ih => rw [exec_forM_cons, hf, List.foldl_cons, ← ih]

end

/-- A check writes nothing, whether it refuses or not. -/
theorem exec_checkQubit (q : Nat) (c : Circuit α) :
    (checkQubit q).exec c =
      (if c.width ≤ q then .error (.qubitOutOfRange q c.width) else .ok (), c) := by
  by_cases hq : c.width ≤ q <;> simp [checkQubit, exec_bind, hq]

theorem exec_checkBit (bit : Nat) (c : Circuit α) :
    (checkBit bit).exec c =
      (if c.bits ≤ bit then .error (.bitOutOfRange bit c.bits) else .ok (), c) := by
  by_cases hbit : c.bits ≤ bit <;> simp [checkBit, exec_bind, hbit]

/-- Checked one after another, the first qubit beyond the register is refused. -/
theorem exec_checkQubits (g : Gate α) (c : Circuit α) :
    (g.qubits.forM checkQubit).exec c = (c.checkGate g, c) := by
  rw [checkGate]
  induction g.qubits with
  | nil => rfl
  | cons q qs ih =>
    rw [exec_forM_cons, exec_checkQubit, List.find?_cons]
    by_cases hq : c.width ≤ q
    · simp only [if_pos hq, decide_eq_true hq]
    · simpa only [if_neg hq, decide_eq_false hq] using ih

theorem exec_records (f : Nat → Measurement) (qs : List Nat) (c : Circuit α) :
    (qs.forM fun q => record (f q)).exec c =
      (.ok (), { c with measurements := c.measurements ++ qs.map f }) := by
  have hrecord : ∀ q (c : Circuit α), (record (f q)).exec c =
      (.ok (), { c with measurements := c.measurements ++ [f q] }) := fun _ _ => rfl
  rw [exec_forM hrecord]
  congr 1
  induction qs generalizing c with
  | nil => simp
  | cons q qs ih => simp [ih]

theorem exec_notes (passes : List String) (c : Circuit α) :
    (passes.forM note).exec c = (.ok (), { c with passes := addNames c.passes passes }) := by
  have hnote : ∀ pass (c : Circuit α), (note pass).exec c = (.ok (),
      if c.passes.contains pass then c else { c with passes := c.passes ++ [pass] }) :=
    fun _ _ => rfl
  rw [exec_forM hnote]
  congr 1
  induction passes generalizing c with
  | nil => rfl
  | cons pass passes ih =>
    have hnames : addNames c.passes (pass :: passes) =
        addNames (if c.passes.contains pass then c.passes else c.passes ++ [pass]) passes := rfl
    rw [List.foldl_cons, ih, hnames]
    split <;> rfl

/-- What is left of an attempt to change a circuit as a whole: the new circuit, or the old one with
the reason. -/
def settle (c : Circuit α) :
    Except (CircuitError α) (Circuit α) → Except (CircuitError α) Unit × Circuit α
  | .ok c' => (.ok (), c')
  | .error e => (.error e, c)

variable [Scalar α]

/-- A gate is stored with its fidelity counted, or nothing is written. -/
theorem exec_push (g : Gate α) (c : Circuit α) : (push g).exec c = settle c (c.addGate g) := by
  rw [push, exec_bind, exec_checkQubits, addGate]
  cases c.checkGate g with
  | error e => rfl
  | ok => rfl

omit [Scalar α] in
/-- Both indices of a measurement are checked before it is stored. -/
theorem exec_measure (qubit bit : Nat) (c : Circuit α) :
    (do checkQubit qubit; checkBit bit; record ⟨qubit, bit⟩ : Change α Unit).exec c =
      settle c (c.measure qubit bit) := by
  by_cases hqubit : c.width ≤ qubit
  · simp [exec_bind, exec_checkQubit, Circuit.measure, settle, hqubit]
  · by_cases hbit : c.bits ≤ bit <;>
      simp [exec_bind, exec_checkQubit, exec_checkBit, record, Circuit.measure, settle, hqubit, hbit]

end Change

theorem measure_eq_ok {c c' : Circuit α} {qubit bit : Nat} :
    c.measure qubit bit = .ok c' ↔ qubit < c.width ∧ bit < c.bits ∧
      c' = { c with measurements := c.measurements ++ [⟨qubit, bit⟩] } := by
  unfold measure
  by_cases hqubit : c.width ≤ qubit
  · rw [if_pos hqubit]
    exact ⟨nofun, fun h => absurd h.1 (Nat.not_lt.2 hqubit)⟩
  · by_cases hbit : c.bits ≤ bit
    · rw [if_neg hqubit, if_pos hbit]
      exact ⟨nofun, fun h => absurd h.2.1 (Nat.not_lt.2 hbit)⟩
    · rw [if_neg hqubit, if_neg hbit]
      exact ⟨fun h => ⟨Nat.not_le.1 hqubit, Nat.not_le.1 hbit, (Except.ok.inj h).symm⟩,
        fun h => congrArg Except.ok h.2.2.symm⟩

variable [Scalar α]

namespace Operation

open Change

/-- **An operation in place** does what it does to the circuit as a whole; a refused one has written
nothing. -/
theorem carryOut_eq (op : Operation α) (c : Circuit α) : op.carryOut c = settle c (op.apply c) := by
  unfold carryOut
  cases op with
  | append new =>
    rw [change, exec_bind, exec_ofExcept, apply]
    cases new.gate with
    | error e => rfl
    | ok g => exact exec_push g c
  | measure qubit bit => exact exec_measure qubit bit c
  | measureAll => exact exec_records _ _ c
  | withGates gates => rfl
  | markOptimized passes => exact exec_notes passes _
  | withMapping mapping => rfl
  | clear => rfl

theorem carryOut_of_error {op : Operation α} {c : Circuit α} {e : CircuitError α}
    (h : (op.carryOut c).1 = .error e) : (op.carryOut c).2 = c := by
  rw [carryOut_eq] at h ⊢
  cases hmade : op.apply c with
  | error e' => rfl
  | ok c' =>
    rw [hmade] at h
    cases h

/-! ## What an operation does -/

/-- The circuits that an operation can leave. -/
inductive Leaves (c : Circuit α) : Operation α → Circuit α → Prop where
  | refused {op e} (h : op.apply c = .error e) : Leaves c op c
  | appended {new g} (hg : new.gate = .ok g) (hinside : ∀ q ∈ g.qubits, q < c.width) :
      Leaves c (append new) (c.appendGates [g])
  | measured {qubit bit} (hqubit : qubit < c.width) (hbit : bit < c.bits) :
      Leaves c (measure qubit bit) { c with measurements := c.measurements ++ [⟨qubit, bit⟩] }
  | measuredAll : Leaves c measureAll c.measureAll
  | replaced (gates) : Leaves c (withGates gates) (c.withGates gates)
  | marked (passes) : Leaves c (markOptimized passes) (c.markOptimized passes)
  | mapped (mapping) : Leaves c (withMapping mapping) (c.withMapping mapping)
  | cleared : Leaves c clear c.clear

theorem leaves_carryOut (op : Operation α) (c : Circuit α) : Leaves c op (op.carryOut c).2 := by
  rw [carryOut_eq]
  cases happly : op.apply c with
  | error e => exact .refused happly
  | ok c' =>
    show Leaves c op c'
    cases op with
    | append new =>
      obtain ⟨g, hg, hadd⟩ := bind_eq_ok.1 happly
      obtain ⟨hinside, rfl⟩ := addGate_eq_ok.1 hadd
      exact .appended hg hinside
    | measure qubit bit =>
      obtain ⟨hqubit, hbit, rfl⟩ := measure_eq_ok.1 happly
      exact .measured hqubit hbit
    | measureAll => cases happly; exact .measuredAll
    | withGates gates => cases happly; exact .replaced gates
    | markOptimized passes => cases happly; exact .marked passes
    | withMapping mapping => cases happly; exact .mapped mapping
    | clear => cases happly; exact .cleared

/-- **What every operation keeps, a row of operations keeps**, whichever of them are refused. -/
theorem run_induction {P : Circuit α → Prop}
    (hstep : ∀ {c c' : Circuit α} {op}, P c → Leaves c op c' → P c') {c : Circuit α} (hc : P c)
    (ops : List (Operation α)) : P (run ops c) := by
  induction ops generalizing c with
  | nil => exact hc
  | cons op ops ih => exact ih (hstep hc (leaves_carryOut op c))

end Operation

/-! ## Registers -/

theorem registers_leaves {width bits : Nat} {c c' : Circuit α} {op : Operation α}
    (hc : c.width = width ∧ c.bits = bits) (h : op.Leaves c c') :
    c'.width = width ∧ c'.bits = bits := by
  cases h <;> exact hc

/-- No operation changes a register. -/
theorem registers_run (width bits : Nat) (ops : List (Operation α)) :
    (Operation.run ops (blank width bits)).width = width ∧
      (Operation.run ops (blank width bits)).bits = bits := by
  apply Operation.run_induction registers_leaves
  exact ⟨rfl, rfl⟩

/-! ## Bookkeeping -/

/-- The books of a circuit agree with what it holds: the fidelity is the product of those of its
gates from the first on, measurements lie in both registers, and no pass is named twice. -/
structure Bookkept (c : Circuit α) : Prop where
  fidelity : c.fidelity = (c.gates.map Gate.fidelity).foldl (· * ·) 1
  measured : ∀ m ∈ c.measurements, m.qubit < c.width ∧ m.bit < c.bits
  passes : c.passes.Nodup

theorem bookkept_blank (width bits : Nat) : (blank width bits : Circuit α).Bookkept :=
  ⟨rfl, by simp [blank], List.nodup_nil⟩

theorem nodup_addNames {names : List String} (hnames : names.Nodup) (more : List String) :
    (addNames names more).Nodup := by
  induction more generalizing names with
  | nil => exact hnames
  | cons name more ih =>
    apply ih
    dsimp only
    split
    · exact hnames
    · next hnew =>
      rw [List.contains_iff_mem] at hnew
      exact List.Nodup.append hnames (List.nodup_singleton name) (List.disjoint_singleton.2 hnew)

theorem Bookkept.record {c : Circuit α} (hc : c.Bookkept) {ms : List Measurement}
    (hms : ∀ m ∈ ms, m.qubit < c.width ∧ m.bit < c.bits) :
    { c with measurements := c.measurements ++ ms }.Bookkept :=
  ⟨hc.fidelity, List.forall_mem_append.2 ⟨hc.measured, hms⟩, hc.passes⟩

/-- **The step**: whatever an operation leaves, its books agree again. -/
theorem Bookkept.leaves {c c' : Circuit α} {op : Operation α} (hc : c.Bookkept)
    (h : op.Leaves c c') : c'.Bookkept := by
  cases h with
  | refused => exact hc
  | @appended _ g _ _ =>
    -- the fidelity counted one gate further
    refine ⟨?_, hc.measured, hc.passes⟩
    show c.fidelity * g.fidelity = _
    rw [hc.fidelity, appendGates, List.map_append, List.foldl_append]
    rfl
  | measured hqubit hbit => exact hc.record (List.forall_mem_singleton.2 ⟨hqubit, hbit⟩)
  | measuredAll =>
    apply hc.record
    intro m hm
    obtain ⟨q, hq, rfl⟩ := List.mem_map.1 hm
    exact Nat.lt_min.1 (List.mem_range.1 hq)
  | replaced gates =>
    -- the fidelity counted anew, in the same order
    refine ⟨?_, hc.measured, hc.passes⟩
    show fidelityOf gates = _
    rw [fidelityOf, withGates, List.foldl_map]
  | marked passes => exact ⟨hc.fidelity, hc.measured, nodup_addNames hc.passes passes⟩
  | mapped => exact ⟨hc.fidelity, hc.measured, hc.passes⟩
  | cleared => exact ⟨rfl, by simp [clear], hc.passes⟩

/-- The books agree after any row of operations. -/
theorem bookkept_run (width bits : Nat) (ops : List (Operation α)) :
    (Operation.run ops (blank width bits)).Bookkept :=
  Operation.run_induction Bookkept.leaves (bookkept_blank width bits) ops

/-- **The books of a circuit are right after any row of operations**, carried out or refused, and an
operation that is refused leaves the circuit as it was. -/
theorem run_bookkept (width bits : Nat) (ops : List (Operation α)) :
    let c := Operation.run ops (blank width bits)
    c.width = width ∧ c.bits = bits ∧ c.Bookkept ∧
      ∀ (op : Operation α) (e : CircuitError α),
        (op.carryOut c).1 = .error e → (op.carryOut c).2 = c := by
  obtain ⟨hwidth, hbits⟩ := registers_run width bits ops
  exact ⟨hwidth, hbits, bookkept_run width bits ops, fun _ _ => Operation.carryOut_of_error⟩

/-- Operations on two qubits and one classical bit. The third, a gate on a qubit that is not there,
and the fifth, a measurement into a bit that is not there, are refused. -/
def interrupted : List (Operation Float) :=
  [.append (.placed (.of .h [0])), .append (.given ((Gate.plain .x [1]).withNoise 0.5)),
    .append (.placed (.of .cnot [0, 2])), .measure 1 0, .measure 0 1,
    .markOptimized ["fusion", "fusion"], .append (.controlled .cz [0] 1 .empty), .measureAll]

theorem run_bookkept_interrupted :
    let c := Operation.run interrupted (blank 2 1)
    let op : Operation Float := .append (.placed (.of .cnot [0, 2]))
    c.Bookkept ∧ c.gates.length = 3 ∧ c.measurements = [⟨1, 0⟩, ⟨0, 0⟩] ∧ c.passes = ["fusion"] ∧
      (op.carryOut c).1 = .error (.qubitOutOfRange 2 2) ∧ (op.carryOut c).2 = c := by
  intro c op
  obtain ⟨-, -, hbooks, hrefused⟩ := run_bookkept 2 1 interrupted
  have herror : (op.carryOut c).1 = .error (.qubitOutOfRange 2 2) := rfl
  exact ⟨hbooks, rfl, rfl, rfl, herror, hrefused op _ herror⟩

end QuantumWorkbench.Circuit
