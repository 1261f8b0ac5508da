import Mathlib
import QuantumWorkbench.Algorithm.Build
import QuantumWorkbench.Proofs.Circuit.Operations

/-!
# Families placed gate by gate

Placing a family is a row of single operations, each of which leaves the circuit alone where it is
refused. The row stops there, so what is left of a family that is not accepted are the gates before
the first one refused.
-/

namespace QuantumWorkbench

open Gate

variable {α : Type} [Scalar α]

/-! ## Single placements -/

theorem Gate.qubits_of_make {kind : GateKind} {qubits : List ℕ} {parameters : Parameters α}
    {g : Gate α} (h : Gate.make kind qubits parameters = .ok g) : g.qubits = qubits := by
  obtain ⟨-, -, -, rfl⟩ := make_eq_ok.1 h
  rfl

theorem Placement.qubits_of_gate {p : Placement α} {g : Gate α} (h : p.gate = .ok g) :
    g.qubits = p.qubits := by
  unfold Placement.gate at h
  split at h
  · next angle qubit _ hqubits =>
    -- a rotation is made of the one qubit that is there
    rw [hqubits]
    unfold Gate.rotation at h
    split at h
    · exact qubits_of_make h
    · cases h
  · exact qubits_of_make h

namespace Circuit

variable {c c' : Circuit α} {p : Placement α} {ps : List (Placement α)} {g : Gate α}
  {gates : List (Gate α)} {fault : CircuitError α}

/-- The gate of a placement is accepted where it can be made and lies in the register. -/
theorem gateFor_eq_ok_iff :
    c.gateFor p = .ok g ↔ p.gate = .ok g ∧ ∀ q ∈ p.qubits, q < c.width := by
  rw [gateFor, bind_eq_ok]
  constructor
  · rintro ⟨g', hg', hcheck⟩
    obtain ⟨_, hinside, hg⟩ := bind_eq_ok.1 hcheck
    cases hg
    exact ⟨hg', p.qubits_of_gate hg' ▸ checkGate_eq_ok.1 hinside⟩
  · rintro ⟨hg, hinside⟩
    rw [← p.qubits_of_gate hg] at hinside
    exact ⟨g, hg, bind_eq_ok.2 ⟨(), checkGate_eq_ok.2 hinside, rfl⟩⟩

/-- Only the register decides about a gate. -/
theorem gateFor_congr (h : c.width = c'.width) (p : Placement α) : c.gateFor p = c'.gateFor p := by
  simp only [gateFor, checkGate, h]

theorem gatesFor_congr (h : c.width = c'.width) (ps : List (Placement α)) :
    c.gatesFor ps = c'.gatesFor ps := by
  induction ps with
  | nil => rfl
  | cons p ps ih => rw [gatesFor, gatesFor, gateFor_congr h, ih]

/-! ## Appended gates -/

@[simp] theorem appendGates_nil (c : Circuit α) : c.appendGates [] = c := by
  simp [appendGates]

theorem appendGates_append (c : Circuit α) (gates more : List (Gate α)) :
    c.appendGates (gates ++ more) = (c.appendGates gates).appendGates more := by
  simp [appendGates]

@[simp] theorem appendGates_eq_self_iff : c.appendGates gates = c ↔ gates = [] := by
  constructor
  · intro h
    have hgates : c.gates ++ gates = c.gates := congrArg Circuit.gates h
    simpa using hgates
  · rintro rfl
    exact appendGates_nil c

/-! ## Rows of placements -/

/-- The gates of placements that are all accepted. -/
def Accepts (c : Circuit α) (ps : List (Placement α)) (gates : List (Gate α)) : Prop :=
  List.Forall₂ (fun p g => c.gateFor p = .ok g) ps gates

theorem Accepts.lt_width (h : c.Accepts ps gates) : ∀ p ∈ ps, ∀ q ∈ p.qubits, q < c.width := by
  induction h with
  | nil => exact fun p hp => absurd hp List.not_mem_nil
  | cons hp _ ih => exact List.forall_mem_cons.2 ⟨(gateFor_eq_ok_iff.1 hp).2, ih⟩

theorem Accepts.eq_nil_iff (h : c.Accepts ps gates) : gates = [] ↔ ps = [] := by
  cases h <;> simp

/-- A row is placed as a whole exactly where all its placements are accepted. -/
theorem gatesFor_eq_none_iff : c.gatesFor ps = (gates, none) ↔ c.Accepts ps gates := by
  unfold Accepts
  induction ps generalizing gates with
  | nil =>
    rw [gatesFor, List.forall₂_nil_left_iff, Prod.mk.injEq, and_iff_left rfl, eq_comm]
  | cons p ps ih =>
    rw [gatesFor, List.forall₂_cons_left_iff]
    cases c.gateFor p with
    | error e => simp
    | ok g =>
      -- the first gate is accepted, so the others decide
      simp only [Prod.mk.injEq, Except.ok.injEq]
      constructor
      · rintro ⟨rfl, hnone⟩
        exact ⟨g, _, rfl, ih.1 (Prod.ext rfl hnone), rfl⟩
      · rintro ⟨_, gates', rfl, hgates', rfl⟩
        rw [ih.2 hgates']
        exact ⟨rfl, rfl⟩

/-- A row breaks off at its first placement that is not accepted. -/
theorem gatesFor_eq_some_iff :
    c.gatesFor ps = (gates, some fault) ↔
      ∃ placed p rest, ps = placed ++ p :: rest ∧ c.Accepts placed gates ∧
        c.gateFor p = .error fault := by
  unfold Accepts
  induction ps generalizing gates with
  | nil => simp [gatesFor]
  | cons p ps ih =>
    rw [gatesFor]
    constructor
    · intro h
      cases hp : c.gateFor p with
      | error e =>
        -- refused at once, so nothing has been placed
        rw [hp] at h
        cases h
        exact ⟨[], p, ps, rfl, .nil, hp⟩
      | ok g =>
        rw [hp] at h
        obtain ⟨rfl, hfault⟩ := Prod.mk.inj h
        obtain ⟨placed, p', rest, rfl, hplaced, hp'⟩ := ih.1 (Prod.ext rfl hfault)
        exact ⟨p :: placed, p', rest, rfl, .cons hp hplaced, hp'⟩
    · rintro ⟨placed, p', rest, hps, hplaced, hp'⟩
      cases hplaced with
      | nil =>
        obtain ⟨rfl, -⟩ := List.cons.inj hps
        rw [hp']
      | @cons _ g placed gates hp hplaced =>
        obtain ⟨rfl, rfl⟩ := List.cons.inj hps
        rw [hp, ih.2 ⟨placed, p', rest, rfl, hplaced, hp'⟩]

omit [Scalar α] in
/-- A register is refused only over its storage. -/
theorem checkRegister_eq_ok_iff {width : ℕ} :
    (checkRegister width : Except (TaskError α) Unit) = .ok () ↔
      Storage.holdsPairs width = true := by
  rw [checkRegister, mapError_eq_ok, checkStorage]
  cases Storage.holdsPairs width <;> simp

omit [Scalar α] in
theorem checkRegister_of_no_storage {width : ℕ} (h : Storage.holdsPairs width = false) :
    (checkRegister width : Except (TaskError α) Unit) = .error (.circuit (.noStorage width)) := by
  rw [checkRegister, checkStorage, if_neg (Bool.eq_false_iff.1 h)]
  rfl

/-- A fresh circuit exists where all its placements are accepted. -/
theorem build_eq_ok_iff {width bits : ℕ} :
    build width bits ps = .ok c ↔ ∃ gates, (blank width bits).Accepts ps gates ∧
      c = (blank width bits).appendGates gates := by
  simp only [← gatesFor_eq_none_iff]
  rw [build, mapError_eq_ok, placeAll, extend]
  rcases (blank width bits : Circuit α).gatesFor ps with ⟨gates, - | fault⟩
  · simp [eq_comm]
  · simp

/-! ## In place -/

/-- Placements appended in place, one operation after another, up to the first that is refused. -/
def Change.appendEach (ps : List (Placement α)) : Change α Unit :=
  ps.forM fun p => (Operation.append (.placed p)).change

theorem Change.exec_append (p : Placement α) (c : Circuit α) :
    (Operation.append (.placed p)).change.exec c =
      settle c ((c.gateFor p).map fun g => c.appendGates [g]) := by
  refine ((Operation.append (.placed p)).carryOut_eq c).trans ?_
  simp only [Operation.apply, NewGate.gate, gateFor, addGate]
  cases p.gate with
  | error e => rfl
  | ok g => cases h : c.checkGate g <;> simp [h, bind, Except.bind, pure, Except.pure, Except.map]

/-- **A row of operations in place** leaves the circuit with the gates before the first one refused,
although each operation of the row leaves all or nothing. -/
theorem Change.exec_appendEach (ps : List (Placement α)) (c : Circuit α) :
    (appendEach ps).exec c =
      ((c.extend ps).2.elim (.ok ()) .error, (c.extend ps).1) := by
  induction ps generalizing c with
  | nil => exact Prod.ext rfl (appendGates_nil c).symm
  | cons p ps ih =>
    have hstep := exec_forM_cons (fun p => (Operation.append (.placed p)).change) p ps c
    rw [appendEach, hstep, exec_append, extend, gatesFor]
    cases c.gateFor p with
    | error e => exact Prod.ext rfl (appendGates_nil c).symm
    | ok g =>
      have hwidth : (c.appendGates [g]).width = c.width := rfl
      -- the others are placed after the new gate, on the same register
      refine (ih (c.appendGates [g])).trans ?_
      rw [extend, gatesFor_congr hwidth]
      rcases c.gatesFor ps with ⟨gates, fault⟩
      exact Prod.ext rfl (appendGates_append c [g] gates).symm

/-! ## Families -/

section

variable {family : Except (TaskError α) (List (Placement α))} {e : TaskError α}

/-- What is left of a circuit after a family that is not accepted: all of it where the family cannot
be described, and otherwise the gates before the first one refused come after its own. -/
inductive Breaks (c : Circuit α) (family : Except (TaskError α) (List (Placement α))) :
    Circuit α → TaskError α → Prop where
  | rejected {e : TaskError α} (h : family = .error e) : Breaks c family c e
  | refused {placed rest : List (Placement α)} {p : Placement α} {gates : List (Gate α)}
      {fault : CircuitError α} (hfamily : family = .ok (placed ++ p :: rest))
      (hplaced : c.Accepts placed gates) (hfault : c.gateFor p = .error fault) :
      Breaks c family (c.appendGates gates) (.circuit fault)

theorem append_eq_some_iff : c.append family = (c', some e) ↔ c.Breaks family c' e := by
  constructor
  · intro h
    cases family with
    | error e' =>
      cases h
      exact .rejected rfl
    | ok ps =>
      obtain ⟨rfl, hfault⟩ := Prod.mk.inj h
      obtain ⟨fault, hsome, rfl⟩ := Option.map_eq_some_iff.1 hfault
      obtain ⟨placed, p, rest, rfl, hplaced, hp⟩ := gatesFor_eq_some_iff.1 (Prod.ext rfl hsome)
      exact .refused rfl hplaced hp
  · rintro (rfl | ⟨rfl, hplaced, hfault⟩)
    · rfl
    · rw [append, extend, gatesFor_eq_some_iff.2 ⟨_, _, _, rfl, hplaced, hfault⟩]
      rfl

/-- A family leaves nothing behind exactly where its first gate is the one refused. -/
theorem Breaks.eq_self_iff (h : c.Breaks (.ok (p :: ps)) c' e) :
    c' = c ↔ ∃ fault, c.gateFor p = .error fault := by
  cases h with
  | rejected h => cases h
  | @refused placed rest p' gates fault hfamily hplaced hfault =>
    rw [appendGates_eq_self_iff, hplaced.eq_nil_iff]
    cases hplaced with
    | nil =>
      obtain ⟨rfl, -⟩ := List.cons.inj (Except.ok.inj hfamily)
      exact iff_of_true rfl ⟨fault, hfault⟩
    | cons hp _ =>
      obtain ⟨rfl, -⟩ := List.cons.inj (Except.ok.inj hfamily)
      exact iff_of_false (List.cons_ne_nil _ _) fun ⟨_, h⟩ => nomatch hp.symm.trans h

/-- A single gate is placed or refused as a whole. -/
theorem Breaks.eq_self_of_single (h : c.Breaks (.ok [p]) c' e) : c' = c := by
  refine h.eq_self_iff.2 ?_
  cases h with
  | rejected h => cases h
  | @refused placed rest p' gates fault hfamily hplaced hfault =>
    -- the gate refused is in the family, and there is only one
    have hmem : p' ∈ [p] := Except.ok.inj hfamily ▸ List.mem_append_right placed List.mem_cons_self
    exact ⟨fault, List.mem_singleton.1 hmem ▸ hfault⟩

end

end Circuit

end QuantumWorkbench
