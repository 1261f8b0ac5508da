import Mathlib
import QuantumWorkbench.Proofs.Simplification.Convergence
import QuantumWorkbench.Proofs.Simplification.Failure
import QuantumWorkbench.Proofs.Simplification.InPlace
import QuantumWorkbench.Proofs.Simplification.Steps
import QuantumWorkbench.Proofs.Simulation

/-!
# Fusing is exact and complete

What a qubit goes through in a list of gates is a row of events: it turns, or a gate comes that does
not rotate. Turns about one axis that follow each other make a stretch. Fusing puts one rotation in
the place of each stretch, by the sum of its angles, and leaves all other events as they are, for
every qubit at once.
-/

namespace QuantumWorkbench.Simplification

open Gate Register

/-! ## Events -/

/-- What happens to a qubit. -/
inductive Event (α : Type) where
  /-- The qubit turns by an angle; the kind of the rotation gives the axis. -/
  | turn (kind : GateKind) (angle : α)
  /-- A gate comes that does not rotate, on this qubit or on others. -/
  | gate (g : Gate α)

namespace Event

variable {α : Type} [Scalar α]

/-- What a gate is to the qubits that see it. A rotation without an angle turns by zero. -/
def of (g : Gate α) : Event α := if g.isRotation then .turn g.kind (g.angle.getD 0) else .gate g

theorem of_rotation {g : Gate α} (hr : g.isRotation = true) :
    of g = .turn g.kind (g.angle.getD 0) := if_pos hr

theorem of_other {g : Gate α} (hr : g.isRotation = false) : of g = .gate g :=
  if_neg (Bool.eq_false_iff.1 hr)

/-- Puts an event before others; a turn about the axis of the first one joins it. -/
def join : Event α → List (Event α) → List (Event α)
  | .turn kind angle, .turn kind' angle' :: es =>
    if kind = kind' then .turn kind (angle + angle') :: es
    else .turn kind angle :: .turn kind' angle' :: es
  | e, es => e :: es

/-- One turn for each stretch of turns about one axis. -/
def stretches (es : List (Event α)) : List (Event α) := es.foldr join []

@[simp] theorem stretches_nil : stretches ([] : List (Event α)) = [] := rfl

@[simp] theorem stretches_cons (e : Event α) (es : List (Event α)) :
    stretches (e :: es) = join e (stretches es) := rfl

@[simp] theorem join_nil (e : Event α) : join e [] = [e] := by cases e <;> rfl

@[simp] theorem join_gate (g : Gate α) (es : List (Event α)) : join (.gate g) es = .gate g :: es :=
  rfl

@[simp] theorem join_turn_gate (kind : GateKind) (angle : α) (g : Gate α) (es : List (Event α)) :
    join (.turn kind angle) (.gate g :: es) = .turn kind angle :: .gate g :: es := rfl

/-- Neither of two events is a turn about the axis of the other. -/
def Apart : Event α → Event α → Prop
  | .turn kind _, .turn kind' _ => kind ≠ kind'
  | _, _ => True

/-- A turn stands alone, apart from what comes next, or it joins a turn about its axis. -/
theorem join_turn_cases (kind : GateKind) (angle : α) (es : List (Event α)) :
    (join (.turn kind angle) es = .turn kind angle :: es ∧
      ∀ e ∈ es.head?, Apart (.turn kind angle) e) ∨
    ∃ angle' es', es = .turn kind angle' :: es' ∧
      join (.turn kind angle) es = .turn kind (angle + angle') :: es' := by
  cases es with
  | nil => exact .inl ⟨rfl, by simp⟩
  | cons e es =>
    cases e with
    | gate g => exact .inl ⟨rfl, by simp [Apart]⟩
    | turn kind' angle' =>
      by_cases hkind : kind = kind'
      · subst hkind
        exact .inr ⟨angle', es, rfl, if_pos rfl⟩
      · exact .inl ⟨if_neg hkind, by simpa [Apart] using hkind⟩

/-- A turn in front of anything is a turn about its axis in front of something. -/
theorem exists_join (kind : GateKind) (angle : α) (es : List (Event α)) :
    ∃ angle' es', join (.turn kind angle) es = .turn kind angle' :: es' := by
  rcases join_turn_cases kind angle es with ⟨hjoin, -⟩ | ⟨_, _, -, hjoin⟩
  · exact ⟨_, _, hjoin⟩
  · exact ⟨_, _, hjoin⟩

/-- A turn about another axis than the next one stands alone. -/
theorem join_of_ne {kind kind' : GateKind} (h : kind ≠ kind') (angle angle' : α)
    (es : List (Event α)) :
    join (.turn kind angle) (join (.turn kind' angle') es) =
      .turn kind angle :: join (.turn kind' angle') es := by
  obtain ⟨angle'', es', hjoin⟩ := exists_join kind' angle' es
  rw [hjoin]
  exact if_neg h

/-- Two turns about one axis join to one, as long as nothing is rounded. -/
theorem join_join (kind : GateKind) (x y : ℝ) (es : List (Event ℝ)) :
    join (.turn kind x) (join (.turn kind y) es) = join (.turn kind (x + y)) es := by
  cases es with
  | nil => simp [join]
  | cons e es =>
    cases e with
    | gate g => simp [join]
    | turn kind' z =>
      by_cases hkind : kind = kind'
      · simp [join, hkind, add_assoc]
      · simp [join, hkind]

/-- **No two stretches of one axis follow each other.** -/
theorem isChain_stretches (es : List (Event α)) : (stretches es).IsChain Apart := by
  induction es with
  | nil => exact .nil
  | cons e es ih =>
    rw [stretches_cons]
    cases e with
    | gate g => exact ih.cons fun _ _ => trivial
    | turn kind angle =>
      rcases join_turn_cases kind angle (stretches es) with
        ⟨hjoin, hapart⟩ | ⟨angle', es', hes, hjoin⟩
      · rw [hjoin]
        exact ih.cons hapart
      · -- the turn that joins has the axis that the first one had
        rw [hjoin]
        rw [hes, List.isChain_cons] at ih
        refine ih.2.cons fun e he => ?_
        have hapart := ih.1 e he
        cases e with
        | gate g => trivial
        | turn kind' _ => exact hapart

/-- Whoever disregards some of the gates that do not rotate finds longer stretches, but the same
ones before and after. -/
theorem stretches_filter_stretches {regarded : Event ℝ → Bool}
    (hturn : ∀ kind angle, regarded (.turn kind angle) = true) (es : List (Event ℝ)) :
    stretches ((stretches es).filter regarded) = stretches (es.filter regarded) := by
  induction es with
  | nil => rfl
  | cons e es ih =>
    cases e with
    | gate g =>
      rw [stretches_cons, join_gate, List.filter_cons, List.filter_cons]
      split
      · rw [stretches_cons, stretches_cons, ih]
      · exact ih
    | turn kind angle =>
      rw [stretches_cons, List.filter_cons_of_pos (hturn _ _), stretches_cons, ← ih]
      rcases join_turn_cases kind angle (stretches es) with ⟨hjoin, -⟩ | ⟨angle', es', hes, hjoin⟩
      · rw [hjoin, List.filter_cons_of_pos (hturn _ _), stretches_cons]
      · rw [hjoin, hes, List.filter_cons_of_pos (hturn _ _), List.filter_cons_of_pos (hturn _ _),
          stretches_cons, stretches_cons, join_join]

end Event

open Event

section

variable {α : Type} [Scalar α]

/-- What a qubit goes through: its turns, and all gates that do not rotate. -/
def events (q : ℕ) (gates : List (Gate α)) : List (Event α) :=
  (gates.filter (seenBy q)).map Event.of

@[simp] theorem events_nil (q : ℕ) : events q ([] : List (Gate α)) = [] := rfl

@[simp] theorem events_append (q : ℕ) (gs hs : List (Gate α)) :
    events q (gs ++ hs) = events q gs ++ events q hs := by
  simp [events]

variable {g : Gate α} {p q : ℕ}

theorem events_cons_of_seen (h : seenBy q g = true) (gs : List (Gate α)) :
    events q (g :: gs) = of g :: events q gs := by
  simp [events, h]

theorem events_cons_of_unseen (h : seenBy q g = false) (gs : List (Gate α)) :
    events q (g :: gs) = events q gs := by
  simp [events, h]

omit [Scalar α] in
theorem seenBy_own (hq : g.qubits = [q]) : seenBy q g = true := by
  simp [seenBy, place, hq]

omit [Scalar α] in
theorem seenBy_other (hr : g.isRotation = true) (hp : g.qubits = [p]) (hne : q ≠ p) :
    seenBy q g = false := by
  simp [seenBy, place, hr, hp, hne.symm]

omit [Scalar α] in
theorem Held.atPlace {P : Gate α → Prop} {pending : Pending α} (hp : Held P pending) :
    AtPlace pending := by
  intro e he
  obtain ⟨-, hr, hq⟩ := hp e he
  exact ⟨hr, by simp [place, hq]⟩

/-- Of what is held back a qubit sees its own rotation. -/
theorem events_values {P : Gate α → Prop} {pending : Pending α} (hp : Held P pending) (q : ℕ) :
    events q pending.values = (pending.get? q).toList.map Event.of := by
  rw [events, filter_values hp.atPlace]

end

/-! ## What fusing does to the events -/

/-- The rotation that is held back at a qubit, in front of what the qubit goes through next. -/
noncomputable def joinHeld (held : Option (Gate ℝ)) (es : List (Event ℝ)) : List (Event ℝ) :=
  (held.toList.map Event.of).foldr join es

/-- The turn of a merged rotation joins those of the two. -/
theorem join_of_merged {a b m : Gate ℝ} (ha : a.Built) (hb : b.Built) (hr : a.isRotation = true)
    (hkind : a.kind = b.kind) (hm : mergeRotations a b = .ok m) (es : List (Event ℝ)) :
    join (of m) es = join (of a) (join (of b) es) := by
  obtain ⟨m', hm', hangle⟩ := exists_mergeRotations ha hb hr hkind
  cases hm.symm.trans hm'
  obtain ⟨-, hkindm, -, -⟩ := mergeRotations_eq_ok hm
  have hrb : b.isRotation = true := by rw [isRotation, ← hkind]; exact hr
  have hrm : m.isRotation = true := by rw [isRotation, hkindm]; exact hr
  rw [of_rotation hr, of_rotation hrb, of_rotation hrm, hkindm, hangle, ← hkind, join_join]
  rfl

/-- **Every stretch becomes one rotation**, on top of the rotations held back. -/
theorem Fusing.events_eq {pending : Pending ℝ} {gates out : List (Gate ℝ)}
    (h : Fusing pending gates out) (hp : Held Built pending) (hgates : ∀ g ∈ gates, g.Built)
    (q : ℕ) : events q out = joinHeld (pending.get? q) (stretches (events q gates)) := by
  induction h with
  | done pending =>
    rw [events_values hp]
    cases pending.get? q <;> simp [joinHeld]
  | @hold pending g gs p out hr hq hnone _ ih =>
    obtain ⟨hg, hgs⟩ := List.forall_mem_cons.1 hgates
    rw [ih (hp.insert hg hr hq) hgs]
    by_cases hqp : q = p
    · subst hqp
      rw [SortedMap.get?_insert_self, hnone, events_cons_of_seen (seenBy_own hq)]
      rfl
    · rw [SortedMap.get?_insert_of_ne _ hqp, events_cons_of_unseen (seenBy_other hr hq hqp)]
  | @merge pending g held merged gs p out hr hq hheld hkind hmerged _ ih =>
    obtain ⟨hg, hgs⟩ := List.forall_mem_cons.1 hgates
    obtain ⟨hbuilt, hheldr, hheldq⟩ := hp.get? hheld
    rw [ih (hp.merge mergeClosed_built hg hq hheld hmerged) hgs]
    by_cases hqp : q = p
    · subst hqp
      rw [SortedMap.get?_insert_self, hheld, events_cons_of_seen (seenBy_own hq)]
      exact join_of_merged hbuilt hg hheldr hkind hmerged _
    · rw [SortedMap.get?_insert_of_ne _ hqp, events_cons_of_unseen (seenBy_other hr hq hqp)]
  | @replace pending g held gs p out hr hq hheld hkind _ ih =>
    obtain ⟨hg, hgs⟩ := List.forall_mem_cons.1 hgates
    obtain ⟨hbuilt, hheldr, hheldq⟩ := hp.get? hheld
    by_cases hqp : q = p
    · subst hqp
      rw [events_cons_of_seen (seenBy_own hheldq), events_cons_of_seen (seenBy_own hq),
        ih (hp.insert hg hr hq) hgs, SortedMap.get?_insert_self, hheld]
      -- the rotation that is put out turns about another axis
      have hjoin := join_of_ne hkind (held.angle.getD 0) (g.angle.getD 0) (stretches (events q gs))
      rw [← of_rotation hr, ← of_rotation hheldr] at hjoin
      exact hjoin.symm
    · rw [events_cons_of_unseen (seenBy_other hheldr hheldq hqp),
        events_cons_of_unseen (seenBy_other hr hq hqp), ih (hp.insert hg hr hq) hgs,
        SortedMap.get?_insert_of_ne _ hqp]
  | @release pending g gs out hr _ ih =>
    obtain ⟨hg, hgs⟩ := List.forall_mem_cons.1 hgates
    have hseen : seenBy q g = true := by simp [seenBy, hr]
    rw [events_append, events_values hp, events_cons_of_seen hseen, events_cons_of_seen hseen,
      ih (held_empty _) hgs, of_other hr]
    cases hget : pending.get? q with
    | none => rfl
    | some held =>
      obtain ⟨-, hheldr, -⟩ := hp.get? hget
      simp [joinHeld, of_rotation hheldr]

/-! ## What else fusing keeps -/

/-- The fidelities held back, read at a qubit: those of the other qubits and the one there. -/
theorem exists_prod_fidelity (pending : Pending ℝ) (q : ℕ) : ∃ others : ℝ,
    (pending.values.map fidelity).prod =
      others * ((pending.get? q).toList.map fidelity).prod ∧
    ∀ m, ((pending.insert q m).values.map fidelity).prod = others * m.fidelity := by
  obtain ⟨before, after, hvalues, hinsert, -⟩ := pending.exists_values_split q
  refine ⟨((before.map Prod.snd).map fidelity).prod * ((after.map Prod.snd).map fidelity).prod,
    ?_, fun m => ?_⟩
  · rw [hvalues, List.map_append, List.map_append, List.prod_append, List.prod_append]
    ring
  · rw [hinsert, List.map_append, List.map_cons, List.prod_append, List.prod_cons]
    ring

/-- **The fidelities are multiplied**: their product is that of all gates. -/
theorem Fusing.prod_fidelity {pending : Pending ℝ} {gates out : List (Gate ℝ)}
    (h : Fusing pending gates out) :
    (out.map fidelity).prod = (pending.values.map fidelity).prod * (gates.map fidelity).prod := by
  -- in each case the product over what is held is split at the qubit of the gate
  induction h with
  | done pending => simp
  | @hold pending g gs q out _ _ hnone _ ih =>
    obtain ⟨others, hvalues, hinsert⟩ := exists_prod_fidelity pending q
    simp only [ih, hvalues, hinsert, hnone, Option.toList_none, List.map_nil, List.prod_nil,
      List.map_cons, List.prod_cons]
    ring
  | @merge pending g held merged gs q out _ _ hheld _ hmerged _ ih =>
    obtain ⟨others, hvalues, hinsert⟩ := exists_prod_fidelity pending q
    simp only [ih, hvalues, hinsert, hheld, (fidelity_mergeRotations hmerged).2,
      Option.toList_some, List.map_nil, List.prod_nil, List.map_cons, List.prod_cons]
    ring
  | @replace pending g held gs q out _ _ hheld _ _ ih =>
    obtain ⟨others, hvalues, hinsert⟩ := exists_prod_fidelity pending q
    simp only [ih, hvalues, hinsert, hheld, Option.toList_some, List.map_nil, List.prod_nil,
      List.map_cons, List.prod_cons]
    ring
  | release hr _ ih =>
    simp [ih, SortedMap.values, SortedMap.empty]

/-- **All gates that do not rotate stay**, in their order: only rotations are held back. -/
theorem Fusing.filter_others {α : Type} [Scalar α] {pending : Pending α} {gates out : List (Gate α)}
    (h : Fusing pending gates out) (hp : Held (fun _ => True) pending) :
    out.filter (fun g => !g.isRotation) = gates.filter fun g => !g.isRotation := by
  -- only rotations are held back
  have hheld {pending : Pending α} (hp : Held (fun _ => True) pending) :
      pending.values.filter (fun g => !g.isRotation) = [] := by
    apply List.filter_eq_nil_iff.2
    intro g hg
    obtain ⟨e, he, rfl⟩ := List.mem_map.1 hg
    simp [(hp e he).2.1]
  induction h with
  | done pending => exact hheld hp
  | hold hr hq _ _ ih =>
    rw [ih (hp.insert trivial hr hq), List.filter_cons_of_neg (by simp [hr])]
  | merge hr hq hget _ hmerged _ ih =>
    rw [ih (hp.merge (fun _ _ _ _ _ => trivial) trivial hq hget hmerged),
      List.filter_cons_of_neg (by simp [hr])]
  | replace hr hq hget _ _ ih =>
    rw [List.filter_cons_of_neg (by simp [(hp.get? hget).2.1]), ih (hp.insert trivial hr hq),
      List.filter_cons_of_neg (by simp [hr])]
  | release hr _ ih =>
    rw [List.filter_append, hheld hp, List.filter_cons, List.filter_cons, ih (held_empty _)]
    rfl

/-- **No two rotations are left to merge**: those about one axis would follow each other in a row of
stretches. -/
theorem not_merged_of_isChain {before between after : List (Gate ℝ)} {a b : Gate ℝ} {q : ℕ}
    (hchain : (events q (before ++ a :: (between ++ b :: after))).IsChain Apart)
    (ha : a.isRotation = true) (hb : b.isRotation = true) (haxis : a.kind.axis = b.kind.axis)
    (hq : a.qubits = [q]) (hq' : b.qubits = [q]) :
    ¬ ∀ g ∈ between, g.isRotation = true ∧ ∃ p, g.qubits = [p] ∧ p ≠ q := by
  intro hbetween
  -- the qubit sees none of the gates between
  have hunseen : events q between = [] := by
    apply List.map_eq_nil_iff.2
    apply List.filter_eq_nil_iff.2
    intro g hg
    obtain ⟨hr, p, hp, hne⟩ := hbetween g hg
    simp [seenBy_other hr hp hne.symm]
  rw [events_append, events_cons_of_seen (seenBy_own hq), events_append, hunseen,
    events_cons_of_seen (seenBy_own hq')] at hchain
  have hpair := (List.isChain_append.1 hchain).2.1
  rw [List.nil_append, List.isChain_cons_cons, of_rotation ha, of_rotation hb] at hpair
  exact hpair.1 (kind_eq_of_axis ha hb haxis)

/-! ## The result -/

/-- One list of gates is another with its rotations fused. -/
structure IsFusionOf (out gates : List (Gate ℝ)) : Prop where
  /-- Both do the same to every state of every register that has the qubits. -/
  acts : ∀ n < 64, (∀ g ∈ gates, g.BuiltIn n) → ∀ amplitudes : Array (Amplitude ℝ),
    amplitudes.size = 2 ^ n → actAll out amplitudes = actAll gates amplitudes
  /-- The fidelities have the same product. -/
  fidelity : (out.map Gate.fidelity).prod = (gates.map Gate.fidelity).prod
  /-- All gates that do not rotate are there, in the same order. -/
  others : out.filter (fun g => !g.isRotation) = gates.filter fun g => !g.isRotation
  /-- No two rotations of a qubit about one axis with only rotations of other qubits between. -/
  unmerged : ∀ before a between b after, out = before ++ a :: (between ++ b :: after) →
    a.isRotation = true → b.isRotation = true → a.kind.axis = b.kind.axis →
    a.qubits = b.qubits → ¬ ∀ g ∈ between, g.isRotation = true ∧ g.qubits ≠ a.qubits
  /-- On every qubit one rotation stands for each stretch about one axis. -/
  rows : ∀ q, events q out = stretches (events q gates)
  /-- On every qubit the stretches have the same axes and angles, whichever of the gates that do
  not rotate are taken to end one. -/
  angles : ∀ q (regarded : Event ℝ → Bool),
    (∀ kind angle, regarded (.turn kind angle) = true) →
      stretches ((events q out).filter regarded) = stretches ((events q gates).filter regarded)

theorem Fusing.isFusionOf {gates out : List (Gate ℝ)} (h : Fusing .empty gates out)
    (hgates : ∀ g ∈ gates, g.Built) : IsFusionOf out gates := by
  have hrows (q : ℕ) : events q out = stretches (events q gates) := h.events_eq (held_empty _) hgates q
  have hbuilt := h.forall_mem mergeClosed_built (held_empty _) hgates
  refine ⟨fun n hn hin amplitudes hsize => ?action, ?fidelity, h.filter_others (held_empty _),
    ?merged, hrows, fun q regarded hturn => ?turns⟩
  case action =>
    have hin' : ∀ g ∈ out, g.BuiltIn n := h.forall_mem (mergeClosed_builtIn n) (held_empty _) hin
    obtain ⟨hsize', hwave⟩ := wave_actAll hn hin hsize
    obtain ⟨hsize'', hwave'⟩ := wave_actAll hn hin' hsize
    apply eq_of_wave hsize'' hsize'
    rw [hwave, hwave', h.operatorAll_eq (held_empty _) hgates]
    rfl
  case fidelity => simp [h.prod_fidelity, SortedMap.values, SortedMap.empty]
  case merged =>
    -- what stands between two rotations of a qubit is not seen by it, so they are neighbours there
    intro before a between b after hsplit ha hb haxis hq hbetween
    have hmem : ∀ g ∈ a :: (between ++ b :: after), g.Built := fun g hg =>
      hbuilt g (hsplit ▸ List.mem_append_right before hg)
    obtain ⟨habuilt, hrest⟩ := List.forall_mem_cons.1 hmem
    have hqa := habuilt.wellFormed.rotation_qubits ha
    have hchain := isChain_stretches (events (a.qubits.headD 0) gates)
    rw [← hrows, hsplit] at hchain
    refine not_merged_of_isChain hchain ha hb haxis hqa (hq ▸ hqa) fun g hg => ?_
    obtain ⟨hr, hne⟩ := hbetween g hg
    have hqg := (hrest g (List.mem_append_left _ hg)).wellFormed.rotation_qubits hr
    refine ⟨hr, _, hqg, fun hsame => hne ?_⟩
    rw [hqg, hqa, hsame]
  case turns =>
    rw [hrows]
    exact stretches_filter_stretches hturn _

/-- **Fusing rotations is exact and complete**: it never fails on constructed gates as long as
nothing is rounded, and what it leaves is the same gates with their rotations fused. Where it does
fail, it leaves the list alone. -/
theorem fuse_exact_and_complete :
    (∀ {α : Type} [Scalar α] (gates : List (Gate α)),
      fuseInPlace gates = settleList gates (Pass.fuse.apply gates) ∧
      ∀ e, (fuseInPlace gates).1 = .error e → (fuseInPlace gates).2 = gates) ∧
    ∀ gates : List (Gate ℝ), (∀ g ∈ gates, g.Built) →
      ∃ out, fuseInPlace gates = (.ok (out != gates), out) ∧ IsFusionOf out gates := by
  refine ⟨fun gates => ⟨fuseInPlace_eq gates, fun e he => ?_⟩, fun gates hgates => ?_⟩
  · rw [fuseInPlace_eq] at he ⊢
    cases happly : Pass.fuse.apply gates with
    | error => rfl
    | ok result =>
      rw [happly] at he
      cases he
  · obtain ⟨out, hfusing⟩ := exists_fusing (held_empty _) hgates
    refine ⟨out, ?_, hfusing.isFusionOf hgates⟩
    rw [fuseInPlace_eq, Pass.apply, (fuse_eq_ok_iff (wellFormed_of_built hgates)).2 hfusing]
    rfl

/-- Turns of two qubits that take turns are fused, and two turns with very small fidelities are left
as they are. -/
theorem fuse_exact_and_complete_interleaved :
    (∃ e, (fuseInPlace tinyTurns).1 = .error e ∧ (fuseInPlace tinyTurns).2 = tinyTurns) ∧
    ∃ a b c : Gate ℝ, Gate.rotation .rz 0 0.5 = .ok a ∧ Gate.rotation .rx 1 0.25 = .ok b ∧
      Gate.rotation .rz 0 0.75 = .ok c ∧ (∀ g ∈ [a, b, c, .plain .cnot [0, 1], a], g.Built) ∧
      ∃ out, fuseInPlace [a, b, c, .plain .cnot [0, 1], a] =
          (.ok (out != [a, b, c, .plain .cnot [0, 1], a]), out) ∧
        IsFusionOf out [a, b, c, .plain .cnot [0, 1], a] := by
  refine ⟨?_, ?_⟩
  · have hfails : (fuseInPlace tinyTurns).1.isOk = false := by decide +kernel
    cases h : (fuseInPlace tinyTurns).1 with
    | error e => exact ⟨e, rfl, (fuse_exact_and_complete.1 tinyTurns).2 e h⟩
    | ok => simp [h, Except.isOk, Except.toBool] at hfails
  · obtain ⟨a, ha⟩ := exists_rotation .rz 0 (0.5 : ℝ) rfl
    obtain ⟨b, hb⟩ := exists_rotation .rx 1 (0.25 : ℝ) rfl
    obtain ⟨c, hc⟩ := exists_rotation .rz 0 (0.75 : ℝ) rfl
    have hgates : ∀ g ∈ [a, b, c, .plain .cnot [0, 1], a], g.Built := by
      simp only [List.forall_mem_cons]
      exact ⟨.rotation ha, .rotation hb, .rotation hc, built_plain rfl rfl, .rotation ha,
        List.forall_mem_nil _⟩
    exact ⟨a, b, c, ha, hb, hc, hgates, fuse_exact_and_complete.2 _ hgates⟩

end QuantumWorkbench.Simplification
