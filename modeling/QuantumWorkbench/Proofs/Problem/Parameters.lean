import Mathlib
import QuantumWorkbench.Problem.Basic
import QuantumWorkbench.Proofs.Double.Whole
import QuantumWorkbench.Proofs.SortedMap

/-!
# Problem data from named values

Each family reads a few fields, each of a form of its own, and needs some of them. What a family
makes of a bag depends only on the fields that fit their form: a value that does not fit is the same
as no value. Where the field is needed the problem is then left without data; where it can be left
out, the malformed value is passed over in silence.
-/

namespace QuantumWorkbench

/-! ## Counts and integers -/

namespace ParameterValue

/-- A double that is a whole number from zero to the largest index. -/
def IsCount (x : Float) : Prop :=
  x.isFinite = true ∧ ∃ n ≤ maxIndex, Double.value x = (n : ℕ)

/-- A double that is a whole number, no further from zero than the largest index. -/
def IsInteger (x : Float) : Prop :=
  x.isFinite = true ∧ ∃ k : ℤ, k.natAbs ≤ maxIndex ∧ Double.value x = k

theorem maxIndex_lt : maxIndex < 2 ^ 53 := by decide

/-- What is compared when an index is read. -/
theorem toIndex?_eq_some {α : Type} [Scalar α] {x : α} {n : ℕ} : toIndex? x = some n ↔
    (0 ≤ x ∧ x ≤ Scalar.num maxIndex) ∧ Scalar.toNat x = n ∧ (Scalar.num n == x) = true := by
  unfold toIndex?
  dsimp only
  constructor
  · intro h
    split_ifs at h with hrange heq
    obtain rfl := Option.some.inj h
    exact ⟨hrange, rfl, heq⟩
  · rintro ⟨hrange, rfl, heq⟩
    rw [if_pos hrange, if_pos heq]

/-- **An index is read** from the double that is this number, and from no other. -/
theorem toIndex?_eq_some_iff {x : Float} {n : ℕ} : toIndex? x = some n ↔
    x.isFinite = true ∧ n ≤ maxIndex ∧ Double.value x = n := by
  have hmax := Double.fromZero_ofNat maxIndex_lt
  have hword : maxIndex < UInt64.size := by decide
  rw [toIndex?_eq_some]
  constructor
  · -- up to the largest index nothing is rounded, so the double is equal to its whole part
    rintro ⟨⟨hzero, hle⟩, rfl, heq⟩
    have hx := Double.fromZero_of_le hzero hle hmax
    have hle : Double.value x ≤ maxIndex := by
      rw [← Double.value_ofNat maxIndex_lt]
      exact (Double.le_iff_value_le hx hmax).1 hle
    have hwhole : Scalar.toNat x = ⌊Double.value x⌋₊ :=
      Double.toNat_toUInt64 hx (hle.trans_lt (by exact_mod_cast hword))
    have hbound : Scalar.toNat x ≤ maxIndex := hwhole.trans_le (Nat.floor_le_of_le hle)
    have hn := hbound.trans_lt maxIndex_lt
    have hvalue := (Double.beq_iff_value_eq (Double.fromZero_ofNat hn) hx).1 heq
    rw [Double.value_ofNat hn] at hvalue
    exact ⟨hx.isFinite, hbound, hvalue.symm⟩
  · rintro ⟨hfinite, hle, hvalue⟩
    have hnonneg : 0 ≤ Double.value x := hvalue ▸ Nat.cast_nonneg n
    have hx := Double.fromZero_of_value hfinite hnonneg
    have hn := hle.trans_lt maxIndex_lt
    have hlt : Double.value x < UInt64.size := by
      rw [hvalue]
      exact_mod_cast hle.trans_lt hword
    refine ⟨⟨?_, ?_⟩, ?_, ?_⟩
    · exact (Double.le_iff_value_le (x := 0) (.zero .positive) hx).2 hnonneg
    · apply (Double.le_iff_value_le hx hmax).2
      rw [Double.value_ofNat maxIndex_lt, hvalue]
      exact_mod_cast hle
    · have hcut := Double.toNat_toUInt64 hx hlt
      rw [hvalue, Nat.floor_natCast] at hcut
      exact hcut
    · apply (Double.beq_iff_value_eq (Double.fromZero_ofNat hn) hx).2
      rw [Double.value_ofNat hn, hvalue]

theorem isSome_toIndex?_iff {x : Float} : (toIndex? x).isSome = true ↔ IsCount x := by
  rw [Option.isSome_iff_exists]
  constructor
  · rintro ⟨n, hn⟩
    obtain ⟨hfinite, hle, hvalue⟩ := toIndex?_eq_some_iff.1 hn
    exact ⟨hfinite, n, hle, hvalue⟩
  · rintro ⟨hfinite, n, hle, hvalue⟩
    exact ⟨n, toIndex?_eq_some_iff.2 ⟨hfinite, hle, hvalue⟩⟩

theorem isSome_toInteger? {α : Type} [Scalar α] (x : α) : (toInteger? x).isSome =
    if x < 0 then (toIndex? (-x)).isSome else (toIndex? x).isSome := by
  unfold toInteger?
  split
  · cases toIndex? (-x) <;> rfl
  · cases toIndex? x <;> rfl

/-- A whole number is one from zero on, or the negative of one. -/
theorem isSome_toInteger?_iff {x : Float} : (toInteger? x).isSome = true ↔ IsInteger x := by
  have hbelow : x.isFinite = true → (x < 0 ↔ Double.value x < 0) := Double.lt_zero_iff
  rw [isSome_toInteger?]
  constructor
  · intro h
    split at h
    · -- below zero the opposite number is read
      obtain ⟨hfinite, n, hle, hvalue⟩ := isSome_toIndex?_iff.1 h
      have hx : x.isFinite = true := (Double.isFinite_neg x).symm.trans hfinite
      have hneg := (Double.value_neg hx).symm.trans hvalue
      refine ⟨hx, -n, by rwa [Int.natAbs_neg, Int.natAbs_natCast], ?_⟩
      rw [Int.cast_neg, Int.cast_natCast, ← hneg, neg_neg]
    · obtain ⟨hfinite, n, hle, hvalue⟩ := isSome_toIndex?_iff.1 h
      exact ⟨hfinite, n, hle, hvalue⟩
  · rintro ⟨hfinite, k, hle, hvalue⟩
    split
    · next hneg =>
      -- the number is below zero where its double is
      have hk : k < 0 := by
        have hneg := (hbelow hfinite).1 hneg
        rw [hvalue] at hneg
        exact_mod_cast hneg
      refine isSome_toIndex?_iff.2 ⟨(Double.isFinite_neg x).trans hfinite, k.natAbs, hle, ?_⟩
      refine (Double.value_neg hfinite).trans ?_
      rw [hvalue, Nat.cast_natAbs, abs_of_neg hk, Int.cast_neg]
    · next hneg =>
      have hk : 0 ≤ k := by
        have hneg := mt (hbelow hfinite).2 hneg
        rw [hvalue, not_lt] at hneg
        exact_mod_cast hneg
      refine isSome_toIndex?_iff.2 ⟨hfinite, k.natAbs, hle, ?_⟩
      rw [hvalue, Nat.cast_natAbs, abs_of_nonneg hk]

end ParameterValue

/-! ## Fields -/

/-- The forms of fields. -/
inductive FieldForm where
  | number | count | list | matrix | edges | clauses | terms
  deriving DecidableEq, Repr

/-- A field that a family reads. -/
structure BagField where
  key : String
  form : FieldForm
  required : Bool

/-- The fields of a family. -/
def ProblemKind.fields : ProblemKind → List BagField
  | maxCut => [⟨"edges", .edges, true⟩, ⟨"num_vertices", .count, false⟩]
  | tsp => [⟨"num_cities", .count, true⟩, ⟨"distances", .matrix, false⟩]
  | portfolio => [⟨"returns", .list, true⟩, ⟨"covariance", .matrix, true⟩,
      ⟨"risk_aversion", .number, true⟩, ⟨"budget", .number, false⟩]
  | knapsack => [⟨"weights", .list, true⟩, ⟨"values", .list, true⟩, ⟨"capacity", .number, true⟩]
  | vertexCover => [⟨"edges", .edges, true⟩, ⟨"num_vertices", .count, false⟩]
  | graphColoring => [⟨"edges", .edges, true⟩, ⟨"num_vertices", .count, false⟩,
      ⟨"num_colors", .count, true⟩]
  | sat => [⟨"clauses", .clauses, true⟩, ⟨"num_variables", .count, false⟩]
  | genericQubo => [⟨"qubo", .terms, true⟩, ⟨"num_variables", .count, false⟩]

namespace FieldForm

open ParameterValue

/-- The rows of a value; an empty list has none. -/
inductive IsRows : ParameterValue Float → List (List Float) → Prop
  | matrix (rows : List (List Float)) : IsRows (.matrix rows) rows
  | list : IsRows (.list []) []

/-- A row that begins with two indices. What follows them is not checked. -/
def IsEdge (row : List Float) : Prop :=
  ∃ u v rest, row = u :: v :: rest ∧ IsCount u ∧ IsCount v

/-- A row of two indices and a coefficient. -/
def IsTerm (row : List Float) : Prop := ∃ i j x, row = [i, j, x] ∧ IsCount i ∧ IsCount j

/-- A value is of a form. -/
def Fits : FieldForm → ParameterValue Float → Prop
  | number, v => ∃ x, v = .number x
  | count, v => ∃ x, v = .number x ∧ IsCount x
  | list, v => ∃ xs, v = .list xs
  | matrix, v => ∃ rows, IsRows v rows
  | edges, v => ∃ rows, IsRows v rows ∧ ∀ row ∈ rows, IsEdge row
  | clauses, v => ∃ rows, IsRows v rows ∧ ∀ row ∈ rows, ∀ x ∈ row, IsInteger x
  | terms, v => ∃ rows, IsRows v rows ∧ ∀ row ∈ rows, IsTerm row

/-- A reader accepts the values of a form and no others. -/
def Reads {β : Type} (form : FieldForm) (read : ParameterValue Float → Option β) : Prop :=
  ∀ v, (read v).isSome = true ↔ form.Fits v

theorem reads_number : Reads .number number? := by
  intro v
  cases v with
  | number x => exact iff_of_true rfl ⟨x, rfl⟩
  | _ => exact iff_of_false Bool.false_ne_true nofun

theorem reads_count : Reads .count index? := by
  intro v
  cases v with
  | number x =>
    refine isSome_toIndex?_iff.trans ⟨fun hx => ⟨x, rfl, hx⟩, ?_⟩
    rintro ⟨y, ⟨⟩, hy⟩
    exact hy
  | _ => exact iff_of_false Bool.false_ne_true nofun

theorem reads_list : Reads .list list? := by
  intro v
  cases v with
  | list xs => exact iff_of_true rfl ⟨xs, rfl⟩
  | _ => exact iff_of_false Bool.false_ne_true nofun

theorem matrix?_eq_some_iff {v : ParameterValue Float} {rows : List (List Float)} :
    v.matrix? = some rows ↔ IsRows v rows := by
  constructor
  · intro h
    cases v with
    | matrix rows =>
      obtain rfl := Option.some.inj h
      exact .matrix _
    | list xs =>
      cases xs with
      | nil =>
        obtain rfl := Option.some.inj h
        exact .list
      | cons x xs => cases h
    | _ => cases h
  · rintro (_ | _) <;> rfl

theorem reads_matrix : Reads .matrix matrix? := by
  intro v
  simp only [Option.isSome_iff_exists, matrix?_eq_some_iff, Fits]

/-! ### Rows -/

theorem isSome_mapM_iff {β γ : Type} {f : β → Option γ} {bs : List β} :
    (bs.mapM f).isSome = true ↔ ∀ b ∈ bs, (f b).isSome = true := by
  induction bs with
  | nil => simp
  | cons b bs ih =>
    rw [List.forall_mem_cons, ← ih, List.mapM_cons]
    cases f b with
    | none => simp
    | some c => cases bs.mapM f <;> simp

/-- The rows of a matrix, read one by one. -/
def rows? {β : Type} (readRow : List Float → Option β) (v : ParameterValue Float) :
    Option (List β) :=
  v.matrix?.bind (List.mapM readRow)

theorem isSome_rows?_iff {β : Type} {readRow : List Float → Option β}
    {v : ParameterValue Float} : (rows? readRow v).isSome = true ↔
      ∃ rows, IsRows v rows ∧ ∀ row ∈ rows, (readRow row).isSome = true := by
  simp only [← matrix?_eq_some_iff, ← isSome_mapM_iff, rows?]
  cases v.matrix? <;> simp

theorem isSome_edgeOfRow?_iff (row : List Float) :
    (ProblemData.edgeOfRow? row).isSome = true ↔ IsEdge row := by
  cases row with
  | nil => exact iff_of_false Bool.false_ne_true nofun
  | cons u row =>
    cases row with
    | nil => exact iff_of_false Bool.false_ne_true nofun
    | cons v rest =>
      have hread : (ProblemData.edgeOfRow? (u :: v :: rest)).isSome =
          ((toIndex? u).isSome && (toIndex? v).isSome) := by
        rw [ProblemData.edgeOfRow?]
        cases toIndex? u <;> cases toIndex? v <;> rfl
      rw [hread, Bool.and_eq_true, isSome_toIndex?_iff, isSome_toIndex?_iff]
      constructor
      · rintro ⟨hu, hv⟩
        exact ⟨u, v, rest, rfl, hu, hv⟩
      · rintro ⟨_, _, _, ⟨⟩, hu, hv⟩
        exact ⟨hu, hv⟩

theorem isSome_weightedEdgeOfRow? (row : List Float) :
    (ProblemData.weightedEdgeOfRow? row).isSome = (ProblemData.edgeOfRow? row).isSome := by
  rw [ProblemData.weightedEdgeOfRow?]
  cases ProblemData.edgeOfRow? row <;> rfl

theorem isSome_termOfRow?_iff (row : List Float) :
    (ProblemData.termOfRow? row).isSome = true ↔ IsTerm row := by
  unfold ProblemData.termOfRow?
  split
  · next i j x =>
    have hread : ((do some (← toIndex? i, ← toIndex? j, x)) : Option (ℕ × ℕ × Float)).isSome =
        ((toIndex? i).isSome && (toIndex? j).isSome) := by
      cases toIndex? i <;> cases toIndex? j <;> rfl
    rw [hread, Bool.and_eq_true, isSome_toIndex?_iff, isSome_toIndex?_iff]
    constructor
    · rintro ⟨hi, hj⟩
      exact ⟨i, j, x, rfl, hi, hj⟩
    · rintro ⟨_, _, _, ⟨⟩, hi, hj⟩
      exact ⟨hi, hj⟩
  · next hlength =>
    refine iff_of_false Bool.false_ne_true ?_
    rintro ⟨i, j, x, rfl, -⟩
    exact hlength i j x rfl

theorem reads_plainEdges : Reads .edges (rows? ProblemData.edgeOfRow?) := by
  intro v
  simp only [isSome_rows?_iff, isSome_edgeOfRow?_iff, Fits]

/-- Weighted edges are of the same form: a weight is never refused. -/
theorem reads_weightedEdges : Reads .edges (rows? ProblemData.weightedEdgeOfRow?) := by
  intro v
  simp only [isSome_rows?_iff, isSome_weightedEdgeOfRow?, isSome_edgeOfRow?_iff, Fits]

theorem reads_clauses : Reads .clauses (rows? fun row => row.mapM toInteger?) := by
  intro v
  simp only [isSome_rows?_iff, isSome_mapM_iff, isSome_toInteger?_iff, Fits]

theorem reads_terms : Reads .terms (rows? ProblemData.termOfRow?) := by
  intro v
  simp only [isSome_rows?_iff, isSome_termOfRow?_iff, Fits]

end FieldForm

/-! ## Reading a bag -/

/-- The value of a name, read by a reader. -/
def ParameterBag.read? {β : Type} (bag : ParameterBag Float) (key : String)
    (read : ParameterValue Float → Option β) : Option β :=
  (bag.get? key).bind read

namespace BagField

/-- A bag has a value of its form for a field. -/
def FitsIn (f : BagField) (bag : ParameterBag Float) : Prop :=
  ∃ v, bag.get? f.key = some v ∧ f.form.Fits v

/-- Two bags have the same value of its form for a field, or neither has any. -/
def SameIn (f : BagField) (bag bag' : ParameterBag Float) : Prop :=
  ∀ v, f.form.Fits v → (bag.get? f.key = some v ↔ bag'.get? f.key = some v)

variable {key : String} {form : FieldForm} {required : Bool} {bag bag' : ParameterBag Float}
  {β : Type} {read : ParameterValue Float → Option β} (hread : form.Reads read)
include hread

theorem fitsIn_iff :
    (⟨key, form, required⟩ : BagField).FitsIn bag ↔ (bag.read? key read).isSome = true := by
  unfold FitsIn ParameterBag.read?
  cases bag.get? key with
  | none => simp
  | some v => simpa using (hread v).symm

/-- A reader sees no difference between a value that does not fit and none. -/
theorem SameIn.read?_eq (h : (⟨key, form, required⟩ : BagField).SameIn bag bag') :
    bag.read? key read = bag'.read? key read := by
  have hfits : ∀ {v b}, read v = some b → form.Fits v := fun {v b} hb =>
    (hread v).1 (by rw [hb]; rfl)
  apply Option.ext
  intro b
  simp only [ParameterBag.read?, Option.bind_eq_some_iff]
  constructor
  · rintro ⟨v, hv, hb⟩
    exact ⟨v, (h v (hfits hb)).1 hv, hb⟩
  · rintro ⟨v, hv, hb⟩
    exact ⟨v, (h v (hfits hb)).2 hv, hb⟩

end BagField

namespace ProblemData

open FieldForm BagField ParameterValue

section

variable (bag : ParameterBag Float)

/-! ### What each family reads -/

/-- The rows of a matrix in a bag are read from its value. -/
theorem bind_rows {β γ : Type} (key : String) (readRow : List Float → Option β)
    (g : List β → Option γ) :
    ((bag.matrix? key).bind fun rows => (rows.mapM readRow).bind g) =
      (bag.read? key (rows? readRow)).bind g := by
  rw [ParameterBag.matrix?, ParameterBag.read?, Option.bind_assoc, Option.bind_assoc]
  congr 1
  funext v
  exact (Option.bind_assoc ..).symm

/-- The number of vertices or variables that is given, zero where none is read. -/
def givenCount (key : String) : ℕ := (bag.read? key index?).getD 0

theorem ofBag?_maxCut : ofBag? .maxCut bag =
    (bag.read? "edges" (rows? weightedEdgeOfRow?)).map fun edges =>
      .maxCut (max (givenCount bag "num_vertices") (vertexCount (ends edges))) edges := by
  rw [Option.map_eq_bind]
  exact bind_rows bag ..

theorem ofBag?_tsp : ofBag? .tsp bag = (bag.read? "num_cities" index?).map fun cities =>
    .tsp cities ((bag.read? "distances" matrix?).getD []) := by
  rw [Option.map_eq_bind]
  rfl

theorem ofBag?_portfolio : ofBag? .portfolio bag =
    (bag.read? "returns" list?).bind fun returns =>
      (bag.read? "covariance" matrix?).bind fun covariance =>
        (bag.read? "risk_aversion" number?).map fun riskAversion =>
          .portfolio returns covariance riskAversion (bag.read? "budget" number?) := by
  simp only [Option.map_eq_bind]
  rfl

theorem ofBag?_knapsack : ofBag? .knapsack bag =
    (bag.read? "weights" list?).bind fun weights =>
      (bag.read? "values" list?).bind fun values =>
        (bag.read? "capacity" number?).map fun capacity => .knapsack weights values capacity := by
  simp only [Option.map_eq_bind]
  rfl

theorem ofBag?_vertexCover : ofBag? .vertexCover bag =
    (bag.read? "edges" (rows? edgeOfRow?)).map fun edges =>
      .vertexCover (max (givenCount bag "num_vertices") (vertexCount edges)) edges := by
  rw [Option.map_eq_bind]
  exact bind_rows bag ..

theorem ofBag?_graphColoring : ofBag? .graphColoring bag =
    (bag.read? "edges" (rows? edgeOfRow?)).bind fun edges =>
      (bag.read? "num_colors" index?).map fun colors =>
        .graphColoring (max (givenCount bag "num_vertices") (vertexCount edges)) edges colors := by
  simp only [Option.map_eq_bind]
  exact bind_rows bag ..

theorem ofBag?_sat : ofBag? .sat bag =
    (bag.read? "clauses" (rows? fun row => row.mapM toInteger?)).map fun signed =>
      .sat (max (givenCount bag "num_variables") (variableCount (clausesOfSigned signed)))
        (clausesOfSigned signed) := by
  rw [Option.map_eq_bind]
  exact bind_rows bag ..

theorem ofBag?_genericQubo : ofBag? .genericQubo bag =
    (bag.read? "qubo" (rows? termOfRow?)).map fun terms =>
      .genericQubo (.ofTerms (givenCount bag "num_variables") terms) := by
  rw [Option.map_eq_bind]
  exact bind_rows bag ..

end

/-! ### Needed fields and fitting fields -/

variable {kind : ProblemKind} {bag bag' : ParameterBag Float}

/-- **There is data where the needed fields fit**, whatever else is in the bag. -/
theorem isSome_ofBag?_iff : (ofBag? kind bag).isSome = true ↔
    ∀ f ∈ kind.fields, f.required = true → f.FitsIn bag := by
  cases kind with
  | maxCut => simp [ProblemKind.fields, ofBag?_maxCut, fitsIn_iff reads_weightedEdges]
  | tsp => simp [ProblemKind.fields, ofBag?_tsp, fitsIn_iff reads_count]
  | portfolio =>
    -- what is not required is read with a default, so only the required readers are split on
    simp only [ProblemKind.fields, ofBag?_portfolio, List.forall_mem_cons, fitsIn_iff reads_list,
      fitsIn_iff reads_matrix, fitsIn_iff reads_number]
    cases bag.read? "returns" list? <;> cases bag.read? "covariance" matrix? <;> simp
  | knapsack =>
    simp only [ProblemKind.fields, ofBag?_knapsack, List.forall_mem_cons, fitsIn_iff reads_list,
      fitsIn_iff reads_number]
    cases bag.read? "weights" list? <;> cases bag.read? "values" list? <;> simp
  | vertexCover => simp [ProblemKind.fields, ofBag?_vertexCover, fitsIn_iff reads_plainEdges]
  | graphColoring =>
    simp only [ProblemKind.fields, ofBag?_graphColoring, List.forall_mem_cons,
      fitsIn_iff reads_plainEdges, fitsIn_iff reads_count]
    cases bag.read? "edges" (rows? edgeOfRow?) <;> simp
  | sat => simp [ProblemKind.fields, ofBag?_sat, fitsIn_iff reads_clauses]
  | genericQubo => simp [ProblemKind.fields, ofBag?_genericQubo, fitsIn_iff reads_terms]

theorem givenCount_congr {key : String} {required : Bool}
    (h : (⟨key, .count, required⟩ : BagField).SameIn bag bag') :
    givenCount bag key = givenCount bag' key := by
  rw [givenCount, givenCount, h.read?_eq reads_count]

/-- **The data depends on the fitting fields only.** -/
theorem ofBag?_congr (h : ∀ f ∈ kind.fields, f.SameIn bag bag') :
    ofBag? kind bag = ofBag? kind bag' := by
  cases kind <;> simp only [ProblemKind.fields, List.forall_mem_cons] at h
  -- a kind reads its own fields and no others: in each case they read the same in both bags
  case maxCut =>
    obtain ⟨hedges, hvertices, -⟩ := h
    rw [ofBag?_maxCut, ofBag?_maxCut, givenCount_congr hvertices,
      hedges.read?_eq reads_weightedEdges]
  case tsp =>
    obtain ⟨hcities, hdistances, -⟩ := h
    rw [ofBag?_tsp, ofBag?_tsp, hcities.read?_eq reads_count, hdistances.read?_eq reads_matrix]
  case portfolio =>
    obtain ⟨hreturns, hcovariance, haversion, hbudget, -⟩ := h
    rw [ofBag?_portfolio, ofBag?_portfolio, hreturns.read?_eq reads_list,
      hcovariance.read?_eq reads_matrix, haversion.read?_eq reads_number,
      hbudget.read?_eq reads_number]
  case knapsack =>
    obtain ⟨hweights, hvalues, hcapacity, -⟩ := h
    rw [ofBag?_knapsack, ofBag?_knapsack, hweights.read?_eq reads_list,
      hvalues.read?_eq reads_list, hcapacity.read?_eq reads_number]
  case vertexCover =>
    obtain ⟨hedges, hvertices, -⟩ := h
    rw [ofBag?_vertexCover, ofBag?_vertexCover, givenCount_congr hvertices,
      hedges.read?_eq reads_plainEdges]
  case graphColoring =>
    obtain ⟨hedges, hvertices, hcolors, -⟩ := h
    rw [ofBag?_graphColoring, ofBag?_graphColoring, givenCount_congr hvertices,
      hedges.read?_eq reads_plainEdges, hcolors.read?_eq reads_count]
  case sat =>
    obtain ⟨hclauses, hvariables, -⟩ := h
    rw [ofBag?_sat, ofBag?_sat, givenCount_congr hvariables, hclauses.read?_eq reads_clauses]
  case genericQubo =>
    obtain ⟨hterms, hvariables, -⟩ := h
    rw [ofBag?_genericQubo, ofBag?_genericQubo, givenCount_congr hvariables,
      hterms.read?_eq reads_terms]

end ProblemData

/-! ## Problems -/

namespace Problem

variable {kind : ProblemKind} {bag bag' : ParameterBag Float}

theorem ofBag_of_none (h : ProblemData.ofBag? kind bag = none) :
    ofBag kind bag = ⟨kind, none, none⟩ := by
  rw [ofBag, h]

theorem isSome_data_ofBag :
    (ofBag kind bag).data.isSome = (ProblemData.ofBag? kind bag).isSome := by
  rw [ofBag]
  cases ProblemData.ofBag? kind bag <;> rfl

theorem ofBag_congr (h : ∀ f ∈ kind.fields, f.SameIn bag bag') :
    ofBag kind bag = ofBag kind bag' := by
  rw [ofBag, ofBag, ProblemData.ofBag?_congr h]

/-- No value of its form is lost with a field that does not fit. -/
theorem sameIn_erase {f g : BagField} (hf : ¬ f.FitsIn bag) (hg : g.key = f.key → g = f) :
    g.SameIn (bag.erase f.key) bag := by
  intro v hv
  by_cases hkey : g.key = f.key
  · -- it is the same field, so what was erased did not fit
    obtain rfl := hg hkey
    rw [SortedMap.get?_erase_self]
    exact iff_of_false nofun fun hvalue => hf ⟨v, hvalue, hv⟩
  · rw [SortedMap.get?_erase_of_ne _ hkey]

/-- No family reads a name twice. -/
theorem fields_key_injective {f g : BagField} (hf : f ∈ kind.fields) (hg : g ∈ kind.fields)
    (hkey : g.key = f.key) : g = f := by
  have hnodup : (kind.fields.map BagField.key).Nodup := by cases kind <;> decide
  exact List.inj_on_of_nodup_map hnodup hg hf hkey

/-- **Fields that do not fit are passed over.** A family gets data exactly where the bag has values
of their forms for all the fields that it needs; otherwise the problem is left without data and
without an encoding. A field that does not fit is the same as one that is not there, so where it can
be left out the problem is that of the bag without it; and what a bag holds besides fitting fields
makes no difference at all. -/
theorem ofBag_reads_fitting (kind : ProblemKind) (bag : ParameterBag Float) :
    ((ofBag kind bag).data.isSome = true ↔
      ∀ f ∈ kind.fields, f.required = true → f.FitsIn bag) ∧
    (∀ f ∈ kind.fields, f.required = true → ¬ f.FitsIn bag →
      ofBag kind bag = ⟨kind, none, none⟩) ∧
    (∀ f ∈ kind.fields, ¬ f.FitsIn bag → ofBag kind (bag.erase f.key) = ofBag kind bag) ∧
    ∀ bag', (∀ f ∈ kind.fields, f.SameIn bag bag') → ofBag kind bag = ofBag kind bag' := by
  have hdata : (ofBag kind bag).data.isSome = true ↔
      ∀ f ∈ kind.fields, f.required = true → f.FitsIn bag := by
    rw [isSome_data_ofBag]
    exact ProblemData.isSome_ofBag?_iff
  refine ⟨hdata, ?needed, ?skipped, fun bag' h => ofBag_congr h⟩
  case needed =>
    intro f hf hrequired hnot
    have hnone : ¬ (ProblemData.ofBag? kind bag).isSome = true := fun h =>
      hnot (ProblemData.isSome_ofBag?_iff.1 h f hf hrequired)
    exact ofBag_of_none (Option.not_isSome_iff_eq_none.1 hnone)
  case skipped =>
    intro f hf hnot
    exact ofBag_congr fun g hg => sameIn_erase hnot (fields_key_injective hf hg)

/-- A number that is not read as an index does not fit a count. -/
theorem not_fitsIn_count {key : String} {required : Bool} {x : Float}
    (hvalue : bag.get? key = some (.number x)) (h : ParameterValue.toIndex? x = none) :
    ¬ (⟨key, .count, required⟩ : BagField).FitsIn bag := by
  rw [BagField.fitsIn_iff FieldForm.reads_count, ParameterBag.read?, hvalue]
  change ¬ (ParameterValue.toIndex? x).isSome = true
  rw [h]
  exact Bool.false_ne_true

/-- A cut of one edge, with a number of vertices below zero. -/
def belowZero : ParameterBag Float :=
  .ofList [("edges", .matrix [[0, 1]]), ("num_vertices", .number (-1))]

/-- A tour of one and a half cities. -/
def halfCity : ParameterBag Float := .ofList [("num_cities", .number 1.5)]

/-- The number of vertices is passed over, the number of cities is needed. -/
theorem ofBag_reads_fitting_belowZero :
    ofBag .maxCut (belowZero.erase "num_vertices") = ofBag .maxCut belowZero ∧
      ofBag .tsp halfCity = ⟨.tsp, none, none⟩ := by
  have hvertices : ¬ (⟨"num_vertices", .count, false⟩ : BagField).FitsIn belowZero :=
    not_fitsIn_count (x := -1) rfl (by decide)
  have hcities : ¬ (⟨"num_cities", .count, true⟩ : BagField).FitsIn halfCity :=
    not_fitsIn_count (x := 1.5) rfl (by decide)
  have hcut := (ofBag_reads_fitting .maxCut belowZero).2.2.1
  have htour := (ofBag_reads_fitting .tsp halfCity).2.1
  exact ⟨hcut _ (by simp [ProblemKind.fields]) hvertices,
    htour _ (by simp [ProblemKind.fields]) rfl hcities⟩

/-- **Not every value that does not fit** leaves the problem without an encoding: with minus one
vertices the cut of one edge is encoded. -/
theorem not_unencoded_belowZero : ¬ ∀ (kind : ProblemKind) (bag : ParameterBag Float),
    (∃ f ∈ kind.fields, ∃ v, bag.get? f.key = some v ∧ ¬ f.form.Fits v) →
      (ofBag kind bag).encoding = none := by
  intro h
  have hvalue : belowZero.get? "num_vertices" = some (.number (-1)) := rfl
  have hunfit : ¬ FieldForm.count.Fits (.number (-1)) := by
    have hnot : ¬ (⟨"num_vertices", .count, false⟩ : BagField).FitsIn belowZero :=
      not_fitsIn_count hvalue (by decide)
    exact fun hfits => hnot ⟨_, hvalue, hfits⟩
  have hencoded : (ofBag .maxCut belowZero).encoding.isSome = true := by decide
  have hnone := h .maxCut belowZero
    ⟨⟨"num_vertices", .count, false⟩, by simp [ProblemKind.fields], _, hvalue, hunfit⟩
  rw [hnone] at hencoded
  cases hencoded

end Problem

end QuantumWorkbench
