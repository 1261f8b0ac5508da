import QuantumWorkbench.Proofs.Simplification.Cancellation
import QuantumWorkbench.Proofs.Simplification.Flush
import QuantumWorkbench.Proofs.Simplification.Reordering
import QuantumWorkbench.Proofs.Simplification.Sweep
import Mathlib.Data.Nat.Find
import Mathlib.Data.Prod.Lex

/-!
# Sweeps settle

A sweep of the standard passes takes gates away, or removes inversions of the widths, or it flushes
the rotations and does nothing else. Flushing settles, so every sweep that moves a list of gates
makes a measure smaller: the number of gates, then the inversions, then the number of times that
flushing still moves something. Where nothing is moved the list is settled: no pass applies to it.
-/

namespace QuantumWorkbench.Simplification

open Gate

variable {α : Type} [Scalar α]

/-! ## Fusing without merging -/

/-- **Fusing that takes no gate away** only flushes. -/
theorem Fusing.eq_flushFrom {pending : Pending α} {gates out : List (Gate α)}
    (h : Fusing pending gates out) (hlen : out.length = pending.values.length + gates.length) :
    out = flushFrom pending gates := by
  induction h with
  | done => rfl
  | hold hr hq hnone _ ih =>
    rw [SortedMap.length_values_insert_of_none _ hnone] at ih
    rw [List.length_cons] at hlen
    rw [flushFrom, if_pos hr, place_eq hq, hnone, ih (by omega)]
    rfl
  | merge _ _ hheld _ _ rest _ =>
    -- merging would have taken a gate away
    have hle := rest.length_le
    rw [SortedMap.length_values_insert_of_some _ hheld] at hle
    rw [List.length_cons] at hlen
    omega
  | replace hr hq hheld _ _ ih =>
    rw [SortedMap.length_values_insert_of_some _ hheld] at ih
    rw [List.length_cons, List.length_cons] at hlen
    rw [flushFrom, if_pos hr, place_eq hq, hheld, ih (by omega)]
    rfl
  | @release pending g gs out hr _ ih =>
    have hempty : (SortedMap.empty : Pending α).values.length = 0 := rfl
    simp only [List.length_append, List.length_cons] at hlen
    rw [flushFrom, if_neg (by simp [hr]), ih (by omega)]

/-! ## The parts of a sweep -/

/-- What a sweep of the standard passes does: it drops and fuses, then it cancels and reorders. -/
structure Swept (gates fused gates' : List (Gate α)) (changed : Bool) : Prop where
  fusing : Fusing .empty (dropDead gates) fused
  result : gates' = (reorder (cancelInverses defaultLookahead fused)).1
  changed_eq_false : changed = false ↔ (dropDead gates).length = gates.length ∧
    (fused == dropDead gates) = true ∧
    (cancelInverses defaultLookahead fused).length = fused.length ∧
    (reorder (cancelInverses defaultLookahead fused)).2 = 0

theorem swept_of_sweep {gates gates' : List (Gate α)} {counts counts' : List PassCount}
    {changed : Bool} (hcounts : counts.map (·.pass) = standardPasses)
    (hgates : ∀ g ∈ gates, g.WellFormed)
    (h : sweep gates counts = .ok (gates', counts', changed)) :
    ∃ fused, Swept gates fused gates' changed := by
  -- four counts, and one application after another
  obtain ⟨c₁, cs₁, rfl, h₁, hcs⟩ := List.map_eq_cons_iff.1 hcounts
  obtain ⟨c₂, cs₂, rfl, h₂, hcs⟩ := List.map_eq_cons_iff.1 hcs
  obtain ⟨c₃, cs₃, rfl, h₃, hcs⟩ := List.map_eq_cons_iff.1 hcs
  obtain ⟨c₄, cs₄, rfl, h₄, hcs⟩ := List.map_eq_cons_iff.1 hcs
  cases List.map_eq_nil_iff.1 hcs
  obtain ⟨_, _, _, _, happly₁, hsweep₁, -, rfl⟩ := sweep_cons_eq_ok.1 h
  rw [h₁] at happly₁
  cases happly₁
  obtain ⟨fused, _, _, _, happly₂, hsweep₂, -, rfl⟩ := sweep_cons_eq_ok.1 hsweep₁
  rw [h₂] at happly₂
  obtain ⟨_, hfuse, happly₂⟩ := bind_eq_ok.1 happly₂
  cases happly₂
  obtain ⟨_, _, _, _, happly₃, hsweep₃, -, rfl⟩ := sweep_cons_eq_ok.1 hsweep₂
  rw [h₃] at happly₃
  cases happly₃
  obtain ⟨_, _, _, _, happly₄, hsweep₄, -, rfl⟩ := sweep_cons_eq_ok.1 hsweep₃
  have hreorder : Pass.reorder.apply (cancelInverses defaultLookahead fused) =
      .ok ((reorder (cancelInverses defaultLookahead fused)).1,
        (reorder (cancelInverses defaultLookahead fused)).2 != 0) := rfl
  rw [h₄, hreorder] at happly₄
  simp only [Except.ok.injEq, Prod.mk.injEq] at happly₄
  obtain ⟨rfl, rfl⟩ := happly₄
  cases hsweep₄
  have hdropped : ∀ g ∈ dropDead gates, g.WellFormed := fun g hg =>
    hgates g (List.mem_of_mem_filter hg)
  refine ⟨fused, (fuse_eq_ok_iff hdropped).1 hfuse, rfl, ?_⟩
  simp [bne]

/-! ## Settled lists -/

/-- A list that a sweep of the standard passes reports as unchanged. -/
def Still (gates : List (Gate α)) : Prop :=
  ∀ counts : List PassCount, counts.map (·.pass) = standardPasses →
    ∃ counts', sweep gates counts = .ok (gates, counts', false)

/-- A list of gates in which fusing finds nothing to merge, and to which the other passes do not
apply once its rotations are flushed. -/
structure Calm (gates : List (Gate α)) : Prop where
  alive : ∀ g ∈ gates, isDead g = false
  fusing : Fusing .empty gates (flush gates)
  partner : ∀ i, findPartner defaultLookahead (flush gates) i = none
  order : ∀ before a b after, flush gates = before ++ a :: b :: after →
    ¬ (b.width < a.width ∧ a.commutes b = true)

/-- A list of gates that no pass changes. -/
structure Settled (gates : List (Gate α)) : Prop extends Calm gates where
  flushed : flush gates = gates

/-- **The three things a sweep can do**: take gates away, remove inversions, or only flush. -/
theorem Swept.cases {gates fused gates' : List (Gate α)} {changed : Bool}
    (h : Swept gates fused gates' changed) (hgates : ∀ g ∈ gates, g.WellFormed) :
    gates'.length < gates.length ∨
      (gates'.length = gates.length ∧
        inversions (gates'.map Gate.width) < inversions (gates.map Gate.width)) ∨
      (Calm gates ∧ gates' = flush gates ∧ (changed = false ↔ (flush gates == gates) = true)) := by
  have hdrop : (dropDead gates).length ≤ gates.length := List.length_filter_le _ _
  have hfuse : fused.length ≤ (dropDead gates).length := by
    simpa [SortedMap.values, SortedMap.empty] using h.fusing.length_le
  have hcancel : (cancelInverses defaultLookahead fused).length ≤ fused.length :=
    (cancelFrom_sublist defaultLookahead 0 fused).length_le
  have hreorder := (reorder_perm (cancelInverses defaultLookahead fused)).length_eq
  rw [← h.result] at hreorder
  by_cases hlen : gates'.length < gates.length
  · exact Or.inl hlen
  · right
    -- no pass took a gate away
    have hdead : dropDead gates = gates := List.filter_sublist.eq_of_length
      (show (dropDead gates).length = gates.length by omega)
    have hfused : fused = flush gates := by
      have hflush := h.fusing.eq_flushFrom (by
        rw [show (SortedMap.empty : Pending α).values.length = 0 from rfl]
        omega)
      rw [hflush, hdead]
      rfl
    have hkept : (cancelInverses defaultLookahead fused).length = fused.length := by omega
    obtain ⟨hsame, hpartner⟩ := cancelInverses_of_length hkept
    have hinversions := inversions_reorder (cancelInverses defaultLookahead fused)
    rw [← h.result, hsame, hfused, map_width_flush hgates] at hinversions
    by_cases hswaps : (reorder (flush gates)).2 = 0
    · -- no exchange either, so flushing is all that happened
      obtain ⟨hstill, horder⟩ := reorder_of_eq_zero hswaps
      have hcalm : Calm gates := {
        alive := fun g hg => by simpa [dropDead] using List.filter_eq_self.1 hdead g hg
        fusing := by
          have hfusing := h.fusing
          rwa [hdead, hfused] at hfusing
        partner := hfused ▸ hpartner
        order := horder }
      refine Or.inr ⟨hcalm, by rw [h.result, hsame, hfused, hstill], ?_⟩
      rw [h.changed_eq_false, hsame, hfused, hdead]
      simp [hswaps]
    · -- each exchange removed an inversion
      exact Or.inl ⟨by omega, by omega⟩

theorem beq_eq (a b : Gate α) : (a == b) =
    (decide (a.kind = b.kind) && a.qubits == b.qubits && a.parameters == b.parameters &&
      (a.isBlank && b.isBlank || a.matrix == b.matrix) && a.fidelity == b.fidelity) := rfl

/-- Gates that pass for equal have the same kinds and the same qubits. -/
theorem of_beq {gs hs : List (Gate α)} (h : (gs == hs) = true) :
    gs.map (·.kind) = hs.map (·.kind) ∧ gs.map (·.qubits) = hs.map (·.qubits) := by
  induction gs generalizing hs with
  | nil =>
    cases hs with
    | nil => exact ⟨rfl, rfl⟩
    | cons b hs => cases h
  | cons a gs ih =>
    cases hs with
    | nil => cases h
    | cons b hs =>
      rw [List.cons_beq_cons, Bool.and_eq_true] at h
      obtain ⟨hfirst, hrest⟩ := h
      obtain ⟨hkinds, hqubits⟩ := ih hrest
      have hab : a.kind = b.kind ∧ a.qubits = b.qubits := by
        rw [beq_eq] at hfirst
        simp only [Bool.and_eq_true, decide_eq_true_eq] at hfirst
        exact ⟨hfirst.1.1.1.1, eq_of_beq hfirst.1.1.1.2⟩
      exact ⟨by rw [List.map_cons, List.map_cons, hkinds, hab.1],
        by rw [List.map_cons, List.map_cons, hqubits, hab.2]⟩

/-- Lists that pass for equal, and of which every qubit sees the same gates, are the same. -/
theorem eq_of_seen_of_beq {gs hs : List (Gate α)}
    (hseen : ∀ q, gs.filter (seenBy q) = hs.filter (seenBy q)) (h : (gs == hs) = true) :
    gs = hs := by
  obtain ⟨hkinds, hqubits⟩ := of_beq h
  refine eq_of_filter_eq hseen ?_ ?_
  · have hmap := congrArg (List.map GateKind.isRotation) hkinds
    rwa [List.map_map, List.map_map] at hmap
  · have hmap := congrArg (List.map fun qs : List Nat => qs.headD 0) hqubits
    rwa [List.map_map, List.map_map] at hmap

/-- Where a sweep reports no change the list is settled, and stays as it is. -/
theorem Swept.settled {gates fused gates' : List (Gate α)} (h : Swept gates fused gates' false)
    (hgates : ∀ g ∈ gates, g.WellFormed) : Settled gates ∧ gates' = gates := by
  obtain ⟨hdrop, hfused, hcancel, hswaps⟩ := h.changed_eq_false.1 rfl
  have hlen : fused.length = (dropDead gates).length := by
    have hmap := congrArg List.length (of_beq hfused).1
    rwa [List.length_map, List.length_map] at hmap
  obtain ⟨hstill, -⟩ := reorder_of_eq_zero hswaps
  have hresult : gates' = cancelInverses defaultLookahead fused := h.result.trans hstill
  rcases h.cases hgates with hlt | ⟨-, hlt⟩ | ⟨hcalm, hflush, hbeq⟩
  · -- no gate is gone
    rw [hresult] at hlt
    omega
  · -- the widths are still those of the list
    have hdead : dropDead gates = gates := List.filter_sublist.eq_of_length hdrop
    have hwidths := congrArg (List.map List.length) (of_beq hfused).2
    rw [List.map_map, List.map_map, hdead] at hwidths
    rw [hresult, (cancelInverses_of_length hcancel).1,
      show fused.map Gate.width = gates.map Gate.width from hwidths] at hlt
    exact absurd hlt (Nat.lt_irrefl _)
  · have hsame := eq_of_seen_of_beq (filter_flush gates) (hbeq.1 rfl)
    exact ⟨⟨hcalm, hsame⟩, hflush.trans hsame⟩

/-! ## The measure -/

open Classical in
/-- The number of times that flushing still moves something. -/
noncomputable def unrest (gates : List (Gate α)) : Nat :=
  Nat.find (p := fun k => flush^[k + 1] gates = flush^[k] gates)
    ⟨gates.length, iterate_flush_succ (Nat.le_refl _)⟩

omit [Scalar α] in
open Classical in
theorem unrest_flush_lt {gates : List (Gate α)} (h : flush gates ≠ gates) :
    unrest (flush gates) < unrest gates := by
  have hspec : flush^[unrest gates + 1] gates = flush^[unrest gates] gates :=
    Nat.find_spec (p := fun k => flush^[k + 1] gates = flush^[k] gates) _
  cases hk : unrest gates with
  | zero =>
    rw [hk] at hspec
    exact absurd hspec h
  | succ k =>
    rw [hk] at hspec
    exact Nat.lt_succ_of_le (Nat.find_min' _ hspec)

/-- What every sweep that moves something makes smaller: the number of gates, the inversions of the
widths, and the unrest, in this order. -/
noncomputable def stage (gates : List (Gate α)) : ℕ ×ₗ ℕ ×ₗ ℕ :=
  toLex (gates.length, toLex (inversions (gates.map Gate.width), unrest gates))

/-- A list is below another where it comes at a lower stage. Where only the unrest is lower it is
the same list flushed: every qubit sees the same gates. -/
def Below (lower gates : List (Gate α)) : Prop :=
  lower.length < gates.length ∨
  (lower.length = gates.length ∧
    inversions (lower.map Gate.width) < inversions (gates.map Gate.width)) ∨
  (lower.length = gates.length ∧
    inversions (lower.map Gate.width) = inversions (gates.map Gate.width) ∧
    unrest lower < unrest gates ∧
    ∀ q, lower.filter (seenBy q) = gates.filter (seenBy q))

namespace Below

omit [Scalar α]

variable {gs hs ks : List (Gate α)}

theorem stage_lt (h : Below gs hs) : stage gs < stage hs := by
  rcases h with hlt | ⟨heq, hlt⟩ | ⟨heq, heq', hlt, -⟩
  · exact Prod.Lex.toLex_lt_toLex.2 (Or.inl hlt)
  · exact Prod.Lex.toLex_lt_toLex.2 (Or.inr ⟨heq, Prod.Lex.toLex_lt_toLex.2 (Or.inl hlt)⟩)
  · exact Prod.Lex.toLex_lt_toLex.2 (Or.inr ⟨heq, Prod.Lex.toLex_lt_toLex.2 (Or.inr ⟨heq', hlt⟩)⟩)

theorem trans (h : Below gs hs) (h' : Below hs ks) : Below gs ks := by
  rcases h with hlen | ⟨hlen, hinv⟩ | ⟨hlen, hinv, hrest, hseen⟩ <;>
    rcases h' with hlen' | ⟨hlen', hinv'⟩ | ⟨hlen', hinv', hrest', hseen'⟩
  all_goals first
    | exact Or.inl (by omega)
    | exact Or.inr (Or.inl ⟨by omega, by omega⟩)
    | exact Or.inr (Or.inr ⟨by omega, by omega, by omega, fun q => (hseen q).trans (hseen' q)⟩)

theorem irrefl : ¬ Below gs gs := fun h => absurd h.stage_lt (lt_irrefl _)

end Below

theorem Below.beq_eq_false {gs hs : List (Gate α)} (h : Below gs hs) : (gs == hs) = false := by
  rw [Bool.eq_false_iff]
  intro hbeq
  obtain ⟨hkinds, hqubits⟩ := of_beq hbeq
  have hwidths : gs.map Gate.width = hs.map Gate.width := by
    have hmap := congrArg (List.map List.length) hqubits
    rwa [List.map_map, List.map_map] at hmap
  have hlength : gs.length = hs.length := by simpa using congrArg List.length hwidths
  -- equal lists agree in length, in widths, and in the order that the qubits see
  rcases h with hlt | ⟨-, hlt⟩ | ⟨-, -, hlt, hseen⟩
  · omega
  · rw [hwidths] at hlt
    exact absurd hlt (Nat.lt_irrefl _)
  · rw [eq_of_seen_of_beq hseen hbeq] at hlt
    exact absurd hlt (Nat.lt_irrefl _)

/-- A flush that moves something goes below the list: the number of gates and their widths stay. -/
theorem below_flush {gates : List (Gate α)} (hgates : ∀ g ∈ gates, g.WellFormed)
    (h : flush gates ≠ gates) : Below (flush gates) gates :=
  Or.inr (Or.inr ⟨length_flush gates, congrArg inversions (map_width_flush hgates),
    unrest_flush_lt h, filter_flush gates⟩)

/-- **Every sweep goes below the list** or leaves a settled list as it is. -/
theorem Swept.below {gates fused gates' : List (Gate α)} {changed : Bool}
    (h : Swept gates fused gates' changed) (hgates : ∀ g ∈ gates, g.WellFormed) :
    Below gates' gates ∨
      (Settled gates ∧ gates' = gates ∧ (changed = false ↔ (gates == gates) = true)) := by
  rcases h.cases hgates with hlt | hlt | ⟨hcalm, rfl, hchanged⟩
  · exact Or.inl (Or.inl hlt)
  · exact Or.inl (Or.inr (Or.inl hlt))
  · by_cases hsame : flush gates = gates
    · rw [hsame] at hchanged ⊢
      exact Or.inr ⟨⟨hcalm, hsame⟩, rfl, hchanged⟩
    · exact Or.inl (below_flush hgates hsame)

end QuantumWorkbench.Simplification
