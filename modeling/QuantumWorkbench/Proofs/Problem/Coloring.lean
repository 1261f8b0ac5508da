import Mathlib
import QuantumWorkbench.Proofs.Problem.Objective
import QuantumWorkbench.Proofs.Qubo.Assignment

/-!
# Ground states of colouring problems

The objective of a colouring problem counts faults. A vertex is without fault when it has one or two
colours, for the reward of a second colour makes up for the penalty of the pair, and an edge is
without fault when its ends share no colour. So the least value that is possible at all is reached
exactly by the selections without clashes. A colouring is such a selection, and where one exists,
every minimiser gives colourings: any colour that is selected for a vertex will do.
-/

namespace QuantumWorkbench

open Qubo

namespace ProblemData

/-! ## Colourings and selections -/

/-- A colouring gives each vertex one of the colours, and different ones to the ends of an edge. -/
structure IsColoring (vertices : ℕ) (edges : List (ℕ × ℕ)) (colors : ℕ) (pick : ℕ → ℕ) : Prop where
  lt : ∀ v < vertices, pick v < colors
  ne : ∀ e ∈ edges, pick e.1 ≠ pick e.2

/-- A selection without clashes has one or two colours for each vertex, and no colour at both ends of
an edge. -/
structure IsClashFree (bits : List ℕ) (vertices : ℕ) (edges : List (ℕ × ℕ)) (colors : ℕ) :
    Prop where
  card : ∀ v < vertices, (colorsOf bits colors v).card = 1 ∨ (colorsOf bits colors v).card = 2
  disjoint : ∀ e ∈ edges, Disjoint (colorsOf bits colors e.1) (colorsOf bits colors e.2)

/-- Any selected colour will do, where there are no clashes. -/
theorem IsClashFree.isColoring {bits : List ℕ} {vertices colors : ℕ} {edges : List (ℕ × ℕ)}
    (h : IsClashFree bits vertices edges colors)
    (hedges : ∀ e ∈ edges, e.1 < vertices ∧ e.2 < vertices) {pick : ℕ → ℕ}
    (hpick : ∀ v < vertices, pick v ∈ colorsOf bits colors v) :
    IsColoring vertices edges colors pick where
  lt v hv := Finset.mem_range.1 (Finset.mem_filter.1 (hpick v hv)).1
  ne e he := by
    obtain ⟨hu, hv⟩ := hedges e he
    exact Finset.disjoint_left.1 (h.disjoint e he) (hpick e.1 hu) |>.imp fun heq =>
      heq ▸ hpick e.2 hv

/-- Each vertex has a selected colour, where there are no clashes. -/
theorem IsClashFree.exists_pick {bits : List ℕ} {vertices colors : ℕ} {edges : List (ℕ × ℕ)}
    (h : IsClashFree bits vertices edges colors) :
    ∃ pick : ℕ → ℕ, ∀ v < vertices, pick v ∈ colorsOf bits colors v := by
  have hnonempty : ∀ v, ∃ c, v < vertices → c ∈ colorsOf bits colors v := by
    intro v
    by_cases hv : v < vertices
    · have hpos : 0 < (colorsOf bits colors v).card := by
        rcases h.card v hv with hcard | hcard <;> omega
      obtain ⟨c, hc⟩ := Finset.card_pos.1 hpos
      exact ⟨c, fun _ => hc⟩
    · exact ⟨0, fun hlt => absurd hlt hv⟩
  exact ⟨fun v => (hnonempty v).choose, fun v => (hnonempty v).choose_spec⟩

/-! ## Faults -/

/-- The faults of a vertex with a number of colours. -/
def vertexFaults (count : ℕ) : ℕ := count.choose 2 + 1 - count

/-- A further colour makes a pair with each one before it. -/
theorem choose_two_succ (n : ℕ) : (n + 1).choose 2 = n + n.choose 2 := by
  have hpascal : (n + 1).choose 2 = n.choose 1 + n.choose 2 := Nat.choose_succ_succ' n 1
  rw [hpascal, Nat.choose_one_right]

/-- So only the first colour earns more than its pairs cost. -/
theorem vertexFaults_succ (n : ℕ) : vertexFaults (n + 1) = n.choose 2 := by
  rw [vertexFaults, choose_two_succ]
  omega

theorem vertexFaults_add (count : ℕ) : vertexFaults count + count = count.choose 2 + 1 := by
  cases count with
  | zero => rfl
  | succ n =>
    rw [vertexFaults_succ, choose_two_succ]
    omega

theorem vertexFaults_eq_zero_iff {count : ℕ} : vertexFaults count = 0 ↔ count = 1 ∨ count = 2 := by
  cases count with
  | zero => simp [vertexFaults]
  | succ n =>
    rw [vertexFaults_succ, Nat.choose_eq_zero_iff]
    omega

/-- The faults of a selection: those of its vertices, and the colours at both ends of its edges. -/
def colorFaults (bits : List ℕ) (vertices : ℕ) (edges : List (ℕ × ℕ)) (colors : ℕ) : ℕ :=
  ∑ v ∈ Finset.range vertices, vertexFaults (colorsOf bits colors v).card +
    (edges.map fun e => (colorsOf bits colors e.1 ∩ colorsOf bits colors e.2).card).sum

theorem colorFaults_eq_zero_iff {bits : List ℕ} {vertices colors : ℕ} {edges : List (ℕ × ℕ)} :
    colorFaults bits vertices edges colors = 0 ↔ IsClashFree bits vertices edges colors := by
  rw [colorFaults, Nat.add_eq_zero_iff, Finset.sum_eq_zero_iff, List.sum_eq_zero_iff]
  simp only [Finset.mem_range, vertexFaults_eq_zero_iff, List.mem_map, forall_exists_index, and_imp,
    forall_apply_eq_imp_iff₂, Finset.card_eq_zero, ← Finset.disjoint_iff_inter_eq_empty]
  exact ⟨fun ⟨hcard, hdisjoint⟩ => ⟨hcard, hdisjoint⟩, fun h => ⟨h.card, h.disjoint⟩⟩

/-! ## The selection of a colouring -/

/-- The selection of one colour for each vertex. -/
def selection (vertices colors : ℕ) (pick : ℕ → ℕ) : List ℕ :=
  (List.range (vertices * colors)).map fun k => if pick (k / colors) = k % colors then 1 else 0

theorem isAssignment_selection (vertices colors : ℕ) (pick : ℕ → ℕ) :
    IsAssignment (selection vertices colors pick) := by
  intro b hb
  obtain ⟨k, -, rfl⟩ := List.mem_map.1 hb
  split <;> omega

/-- **The variables of different vertices and colours are different**, and all are in the register. -/
theorem colorVariable_eq_iff {colors vertex color k : ℕ} (hcolor : color < colors) :
    Encoding.colorVariable colors vertex color = k ↔ vertex = k / colors ∧ color = k % colors := by
  rw [Encoding.colorVariable]
  constructor
  · rintro rfl
    rw [Nat.mul_comm, Nat.mul_add_div (by omega), Nat.div_eq_of_lt hcolor, Nat.mul_add_mod,
      Nat.mod_eq_of_lt hcolor]
    exact ⟨rfl, rfl⟩
  · rintro ⟨rfl, rfl⟩
    rw [Nat.mul_comm]
    exact Nat.div_add_mod k colors

theorem colorVariable_lt {vertices colors vertex color : ℕ} (hvertex : vertex < vertices)
    (hcolor : color < colors) : Encoding.colorVariable colors vertex color < vertices * colors := by
  have hrow : (vertex + 1) * colors ≤ vertices * colors := Nat.mul_le_mul_right colors hvertex
  rw [Nat.succ_mul] at hrow
  rw [Encoding.colorVariable]
  omega

theorem colorsOf_selection {vertices colors vertex : ℕ} {pick : ℕ → ℕ} (hvertex : vertex < vertices)
    (hpick : pick vertex < colors) :
    colorsOf (selection vertices colors pick) colors vertex = {pick vertex} := by
  ext color
  rw [colorsOf, Finset.mem_filter, Finset.mem_range, Finset.mem_singleton]
  by_cases hcolor : color < colors
  · obtain ⟨hdiv, hmod⟩ := (colorVariable_eq_iff hcolor).1 (Eq.refl
      (Encoding.colorVariable colors vertex color))
    have hbit : bitAt (selection vertices colors pick)
        (Encoding.colorVariable colors vertex color) =
          if pick vertex = color then 1 else 0 := by
      rw [bitAt, selection, List.getD_eq_getElem?_getD, List.getElem?_map,
        List.getElem?_range (colorVariable_lt hvertex hcolor), Option.map_some, Option.getD_some,
        ← hdiv, ← hmod]
    rw [hbit]
    by_cases heq : pick vertex = color
    · simp [heq, hcolor]
    · simp [heq, Ne.symm heq]
  · exact ⟨fun h => absurd h.1 hcolor, fun h => absurd (h ▸ hpick) hcolor⟩

theorem IsColoring.isClashFree_selection {vertices colors : ℕ} {edges : List (ℕ × ℕ)}
    {pick : ℕ → ℕ} (h : IsColoring vertices edges colors pick)
    (hedges : ∀ e ∈ edges, e.1 < vertices ∧ e.2 < vertices) :
    IsClashFree (selection vertices colors pick) vertices edges colors where
  card v hv := by
    rw [colorsOf_selection hv (h.lt v hv), Finset.card_singleton]
    exact Or.inl rfl
  disjoint e he := by
    obtain ⟨hu, hv⟩ := hedges e he
    rw [colorsOf_selection hu (h.lt _ hu), colorsOf_selection hv (h.lt _ hv),
      Finset.disjoint_singleton]
    exact h.ne e he

end ProblemData

namespace Encoding

open ProblemData

/-! ## Widths -/

section

variable {α : Type} [Scalar α] {vertices colors : ℕ} {penalty : α} {t : ℕ × ℕ × α}

/-- The variables of a vertex lie in the register. -/
theorem lt_of_mem_vertexTerms {vertex : ℕ} (hvertex : vertex < vertices)
    (ht : t ∈ vertexTerms colors penalty vertex) :
    t.1 < vertices * colors ∧ t.2.1 < vertices * colors := by
  obtain ⟨c, hc, ht⟩ := List.mem_flatMap.1 ht
  have hfirst := colorVariable_lt hvertex (List.mem_range.1 hc)
  rcases List.mem_cons.1 ht with rfl | ht
  · exact ⟨hfirst, hfirst⟩
  · obtain ⟨c', hc', rfl⟩ := List.mem_map.1 ht
    have hlt : c' < colors := by
      rw [List.mem_range'_1] at hc'
      omega
    exact ⟨hfirst, colorVariable_lt hvertex hlt⟩

omit [Scalar α] in
/-- The variables of the ends of an edge lie in the register. -/
theorem lt_of_mem_edgeTerms {edge : ℕ × ℕ} (hedge : edge.1 < vertices ∧ edge.2 < vertices)
    (ht : t ∈ edgeTerms colors penalty edge) :
    t.1 < vertices * colors ∧ t.2.1 < vertices * colors := by
  obtain ⟨c, hc, rfl⟩ := List.mem_map.1 ht
  have hcolor := List.mem_range.1 hc
  exact ⟨colorVariable_lt hedge.1 hcolor, colorVariable_lt hedge.2 hcolor⟩

end

section

variable {vertices colors : ℕ} {edges : List (ℕ × ℕ)}
  (hedges : ∀ e ∈ edges, e.1 < vertices ∧ e.2 < vertices)
include hedges

theorem coveringWidth?_of_lt (hvertices : vertices < Index.limit) :
    coveringWidth? vertices edges = some vertices := by
  induction edges with
  | nil => rfl
  | cons e edges ih =>
    obtain ⟨⟨hu, hv⟩, hrest⟩ := List.forall_mem_cons.1 hedges
    have hnext : max e.1 e.2 + 1 ≤ vertices := max_lt hu hv
    have hwiden : (Index.next? (max e.1 e.2)).map (max vertices) = some vertices := by
      rw [Index.next?, Index.checked?, if_pos (hnext.trans_lt hvertices), Option.map_some,
        max_eq_left hnext]
    rw [coveringWidth?, List.foldlM_cons, hwiden]
    exact ih hrest

/-- The register of a colouring problem has a variable for each vertex and colour, if they are so few
that an index can count them. -/
theorem registerWidth?_graphColoring (hcolors : 0 < colors) :
    registerWidth? (.graphColoring vertices edges colors : ProblemData ℝ) =
      Index.mul? vertices colors := by
  rw [registerWidth?]
  by_cases hvertices : vertices < Index.limit
  · rw [coveringWidth?_of_lt hedges hvertices, Option.bind_some]
  · -- too many vertices are too many for every number of colours
    have hwide : ∀ width, vertices ≤ width → Index.mul? width colors = none := by
      intro width hwidth
      have hle : width ≤ width * colors := Nat.le_mul_of_pos_right width hcolors
      rw [Index.mul?, Index.checked?, if_neg (by omega)]
    have hcover : ∀ (es : List (ℕ × ℕ)) (start : ℕ), vertices ≤ start →
        (coveringWidth? start es).bind (fun width => Index.mul? width colors) = none := by
      intro es
      induction es with
      | nil => exact fun start hstart => hwide start hstart
      | cons e es ih =>
        intro start hstart
        rw [coveringWidth?, List.foldlM_cons]
        cases Index.next? (max e.1 e.2) with
        | none => rfl
        | some next => exact ih (max start next) (hstart.trans (le_max_left _ _))
    rw [hcover edges vertices le_rfl, hwide vertices le_rfl]

theorem width_graphColoring (hcolors : 0 < colors) :
    (graphColoring (vertices * colors) vertices edges colors : Encoding ℝ).qubo.width =
      vertices * colors := by
  simp only [graphColoring, ofQubo, record, if_neg hcolors.ne']
  refine ((isDeclared_ofTerms fun t ht => ?rewards).addTerms fun t ht => ?clashes).width_eq
  case rewards =>
    obtain ⟨v, hv, ht⟩ := List.mem_flatMap.1 ht
    exact lt_of_mem_vertexTerms (List.mem_range.1 hv) ht
  case clashes =>
    obtain ⟨e, he, ht⟩ := List.mem_flatMap.1 ht
    exact lt_of_mem_edgeTerms (hedges e he) ht

end

/-! ## Ground states -/

theorem evaluate_graphColoring_faults {bits : List ℕ} (hbits : IsAssignment bits)
    (width vertices : ℕ) (edges : List (ℕ × ℕ)) (colors : ℕ) :
    (graphColoring width vertices edges colors : Encoding ℝ).qubo.evaluate bits =
      10 * vertices * colors * (colorFaults bits vertices edges colors - vertices) := by
  have hvertex (v : ℕ) : (vertexFaults (colorsOf bits colors v).card : ℝ) =
      (colorsOf bits colors v).card.choose 2 + 1 - (colorsOf bits colors v).card := by
    have hadd := vertexFaults_add (colorsOf bits colors v).card
    rw [eq_sub_iff_add_eq]
    exact_mod_cast hadd
  rw [evaluate_graphColoring hbits, colorFaults]
  push_cast
  simp only [hvertex, List.map_map, Function.comp_def, Finset.sum_sub_distrib, Finset.sum_add_distrib, Finset.sum_const,
    Finset.card_range, nsmul_eq_mul, mul_one]
  ring

/-- **Ground states of a colouring problem.** The register has a variable for each vertex and colour.
No selection of colours falls below the recorded penalty times the number of vertices, taken
negative, and a selection reaches it if and only if it has no clashes. So where the graph has a
colouring, every minimiser selects a colour for each vertex, and any choice among the selected
colours is a colouring. -/
theorem graphColoring_ground {vertices colors : ℕ} (hvertices : 0 < vertices) (hcolors : 0 < colors)
    {edges : List (ℕ × ℕ)} (hedges : ∀ e ∈ edges, e.1 < vertices ∧ e.2 < vertices) :
    registerWidth? (.graphColoring vertices edges colors : ProblemData ℝ) =
      Index.mul? vertices colors ∧
    ∃ (e : Encoding ℝ) (penalty : ℝ), e = graphColoring (vertices * colors) vertices edges colors ∧
      e.penalty? = some penalty ∧ e.qubo.width = vertices * colors ∧
      (∀ bits, e.qubo.Assigns bits → -penalty * vertices ≤ e.qubo.evaluate bits ∧
        (e.qubo.evaluate bits = -penalty * vertices ↔ IsClashFree bits vertices edges colors)) ∧
      ((∃ pick, IsColoring vertices edges colors pick) → ∀ bits, e.qubo.IsMinimiser bits →
        (∃ pick : ℕ → ℕ, ∀ v < vertices, pick v ∈ colorsOf bits colors v) ∧
        ∀ pick : ℕ → ℕ, (∀ v < vertices, pick v ∈ colorsOf bits colors v) →
          IsColoring vertices edges colors pick) := by
  have hpenalty : (0 : ℝ) < 10 * vertices * colors := by positivity
  have hwidth := width_graphColoring hedges hcolors
  have hbound : ∀ bits, IsAssignment bits → -(10 * vertices * colors : ℝ) * vertices ≤
      (graphColoring (vertices * colors) vertices edges colors).qubo.evaluate bits := by
    intro bits hbits
    rw [evaluate_graphColoring_faults hbits]
    nlinarith [mul_nonneg hpenalty.le (Nat.cast_nonneg (α := ℝ)
      (colorFaults bits vertices edges colors))]
  have hground : ∀ bits, IsAssignment bits →
      ((graphColoring (vertices * colors) vertices edges colors).qubo.evaluate bits =
        -(10 * vertices * colors : ℝ) * vertices ↔ IsClashFree bits vertices edges colors) := by
    intro bits hbits
    rw [evaluate_graphColoring_faults hbits, ← colorFaults_eq_zero_iff, neg_mul, ← mul_neg,
      mul_right_inj' hpenalty.ne', sub_eq_neg_self, Nat.cast_eq_zero]
  refine ⟨registerWidth?_graphColoring hedges hcolors, _, _, rfl,
    penalty?_ofData (vertices * colors) (.graphColoring vertices edges colors), hwidth,
    fun bits hbits => ⟨hbound bits hbits.binary, hground bits hbits.binary⟩, ?_⟩
  rintro ⟨pick, hpick⟩ bits hleast
  -- the selection of the colouring has no clashes, so the bound is reached
  have hselection := isAssignment_selection vertices colors pick
  have hassigns : (graphColoring (vertices * colors) vertices edges colors : Encoding ℝ).qubo.Assigns
      (selection vertices colors pick) :=
    ⟨by rw [hwidth, selection, List.length_map, List.length_range], hselection⟩
  have hvalue := hleast.evaluate_eq (fun bits hbits => hbound bits hbits.binary) hassigns
    ((hground _ hselection).2 (hpick.isClashFree_selection hedges))
  have hclashFree := (hground bits hleast.assigns.binary).1 hvalue
  exact ⟨hclashFree.exists_pick, fun _ h => hclashFree.isColoring hedges h⟩

/-- Two neighbours and three colours: with two colours at one end and the third at the other nothing
is lost, and either of the two will do. -/
theorem graphColoring_ground_doubled : 0 < 2 ∧ 0 < 3 ∧ (∀ e ∈ [(0, 1)], e.1 < 2 ∧ e.2 < 2) ∧
    (graphColoring 6 2 [(0, 1)] 3 : Encoding ℝ).qubo.IsMinimiser [1, 1, 0, 0, 0, 1] ∧
    (graphColoring 6 2 [(0, 1)] 3 : Encoding ℝ).qubo.evaluate [1, 1, 0, 0, 0, 1] = -120 ∧
    IsColoring 2 [(0, 1)] 3 (fun v => v + 1) := by
  have hedges : ∀ e ∈ [(0, 1)], e.1 < 2 ∧ e.2 < 2 := by decide
  obtain ⟨-, e, penalty, rfl, hpenalty, hwidth, hground, hpicks⟩ :=
    graphColoring_ground (two_pos : 0 < 2) (three_pos : 0 < 3) hedges
  have hrecorded : penalty = 60 := by
    have hdata := penalty?_ofData 6 (.graphColoring 2 [(0, 1)] 3)
    rw [Option.some_inj.1 (hpenalty.symm.trans hdata)]
    norm_num
  have hassigns : (graphColoring (2 * 3) 2 [(0, 1)] 3 : Encoding ℝ).qubo.Assigns
      [1, 1, 0, 0, 0, 1] := ⟨hwidth.symm, by decide⟩
  have hclashFree : IsClashFree [1, 1, 0, 0, 0, 1] 2 [(0, 1)] 3 := ⟨by decide, by decide⟩
  have hvalue := (hground _ hassigns).2.2 hclashFree
  have hleast : (graphColoring (2 * 3) 2 [(0, 1)] 3 : Encoding ℝ).qubo.IsMinimiser
      [1, 1, 0, 0, 0, 1] := ⟨hassigns, fun bits hbits => hvalue.trans_le (hground bits hbits).1⟩
  refine ⟨two_pos, three_pos, hedges, hleast, ?_,
    (hpicks ⟨id, by decide, by decide⟩ _ hleast).2 _ (by decide)⟩
  rw [hrecorded] at hvalue
  exact hvalue.trans (by norm_num)

end Encoding

end QuantumWorkbench
