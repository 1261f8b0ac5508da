import Mathlib
import QuantumWorkbench.Proofs.Gate.Inverse
import QuantumWorkbench.Proofs.Simulation

/-!
# Products of matrices

The product of two matrices stored row by row skips the zero entries of its left factor, which
changes no sum; with the conjugate transpose it follows the laws of matrices. Gates on one list of
qubits act, one after another, as one gate with the product of their matrices. The matrix of the
gate that acts first stands on the right.
-/

namespace QuantumWorkbench

open Gate Register
open scoped Matrix

namespace SquareMatrix

variable {a b m m' : SquareMatrix ℝ} {d : ℕ}

/-! ## Matrices by their entries -/

/-- A matrix that is made entry by entry fills its square. -/
theorem isFull_ofFn (d : ℕ) (f : ℕ → ℕ → Amplitude ℝ) : (ofFn d f).isFull = true := by
  simp [isFull, ofFn]

/-- Two matrices that fill one square are the same where they have the same entries. -/
theorem eq_of_toMatrix (hfull : m.isFull = true) (hfull' : m'.isFull = true) (hdim : m.dim = d)
    (hdim' : m'.dim = d) (h : m.toMatrix d = m'.toMatrix d) : m = m' := by
  obtain ⟨side, as⟩ := m
  obtain ⟨side', bs⟩ := m'
  obtain rfl : side = d := hdim
  obtain rfl : side' = side := hdim'
  have hsize : as.size = side' * side' := beq_iff_eq.1 hfull
  have hsize' : bs.size = side' * side' := beq_iff_eq.1 hfull'
  congr 1
  apply Array.ext (hsize.trans hsize'.symm)
  intro i hi hi'
  have hlt : i < side' * side' := hsize ▸ hi
  have hpos : 0 < side' := Nat.pos_of_mul_pos_left (Nat.zero_lt_of_lt hlt)
  -- the place of an entry tells its row and its column
  have hentry :=
    congrFun (congrFun h ⟨i / side', Nat.div_lt_of_lt_mul hlt⟩) ⟨i % side', Nat.mod_lt i hpos⟩
  have hsame := Amplitude.toComplex_injective hentry
  simpa [entry, Nat.div_add_mod', hi, hi'] using hsame

/-! ## The product -/

theorem mul?_eq_some_iff : a.mul? b = some m ↔ a.dim = b.dim ∧ a.mul b = m := by
  rw [mul?, Option.ite_none_right_eq_some, Option.some.injEq]

/-- An entry that is skipped stands for zero. -/
theorem toComplex_of_beq_zero {z : Amplitude ℝ} (h : (z == 0) = true) : z.toComplex = 0 := by
  have hparts : (z.re == 0 && z.im == 0) = true := h
  obtain ⟨hre, him⟩ := Bool.and_eq_true_iff.1 hparts
  exact Complex.ext (eq_of_beq hre) (eq_of_beq him)

/-- Items that are left out of a list and count nothing are not missed in a sum. -/
theorem sum_map_filter {β : Type} {p : β → Bool} {f : β → ℂ} (h : ∀ x, p x = false → f x = 0)
    (xs : List β) : ((xs.filter p).map f).sum = (xs.map f).sum := by
  have hrest : ((xs.filter fun x => !p x).map f).sum = 0 := by
    apply List.sum_eq_zero
    intro z hz
    obtain ⟨x, hx, rfl⟩ := List.mem_map.1 hz
    exact h x (Bool.not_eq_eq_eq_not.1 (List.mem_filter.1 hx).2)
  calc ((xs.filter p).map f).sum
      = ((xs.filter p).map f).sum + ((xs.filter fun x => !p x).map f).sum := by
        rw [hrest, add_zero]
    _ = (xs.map f).sum := by
        simpa using List.sum_map_filter_add_sum_map_filter_not (p · = true) f xs

/-- An entry of a product, of which the sum leaves out what the left factor has as zero. -/
theorem toComplex_entry_mul {i j : ℕ} (hi : i < a.dim) (hj : j < a.dim) :
    ((a.mul b).entry i j).toComplex =
      ∑ k ∈ Finset.range a.dim, (a.entry i k).toComplex * (b.entry k j).toComplex := by
  let term : ℕ × Amplitude ℝ → ℂ := fun e => (e.2 * b.entry e.1 j).toComplex
  -- the row leaves out its zeros, which add nothing to the sum
  have hskip : ∀ e : ℕ × Amplitude ℝ, (!(e.2 == 0)) = false → term e = 0 := by
    intro e he
    have hzero := toComplex_of_beq_zero (Bool.not_eq_eq_eq_not.1 he)
    calc term e = e.2.toComplex * (b.entry e.1 j).toComplex := Amplitude.toComplex_mul _ _
      _ = 0 := by rw [hzero, zero_mul]
  have hrow : ((Array.range a.dim).map a.rowSupport).getD i [] = a.rowSupport i := by simp [hi]
  have hsum : (a.rowSupport i).foldl (fun acc (k, z) => acc + z * b.entry k j) 0 =
      Amplitude.sum ((a.rowSupport i).map fun e => e.2 * b.entry e.1 j) := by
    rw [Amplitude.sum, List.foldl_map]
  have hentry : (a.mul b).entry i j =
      Amplitude.sum ((a.rowSupport i).map fun e => e.2 * b.entry e.1 j) := by
    rw [mul, entry_ofFn _ hi hj, ← hsum]
    dsimp only
    rw [hrow]
  calc ((a.mul b).entry i j).toComplex
      = ((a.rowSupport i).map term).sum := by
        rw [hentry, Amplitude.toComplex_sum, List.map_map]
        rfl
    _ = (((List.range a.dim).map fun k => (k, a.entry i k)).map term).sum :=
        sum_map_filter hskip _
    _ = ∑ k ∈ Finset.range a.dim, (a.entry i k).toComplex * (b.entry k j).toComplex := by
        rw [List.map_map]
        rfl

/-- **The product of two matrices** stored row by row is their product as matrices. -/
theorem toMatrix_mul (ha : a.dim = d) : (a.mul b).toMatrix d = a.toMatrix d * b.toMatrix d := by
  subst ha
  ext i j
  rw [toMatrix, toComplex_entry_mul i.isLt j.isLt, Matrix.mul_apply, Finset.sum_range]
  rfl

/-- **The conjugate transpose of a product** is the product in the other order. -/
theorem dagger_mul (h : a.dim = b.dim) : (a.mul b).dagger = b.dagger.mul a.dagger := by
  have hproduct : (a.mul b).dim = b.dim := h
  refine eq_of_toMatrix (d := b.dim) (isFull_ofFn _ _) (isFull_ofFn _ _) h rfl ?_
  calc (a.mul b).dagger.toMatrix b.dim
      = (a.toMatrix b.dim * b.toMatrix b.dim)ᴴ := by rw [toMatrix_dagger hproduct, toMatrix_mul h]
    _ = (b.toMatrix b.dim)ᴴ * (a.toMatrix b.dim)ᴴ := Matrix.conjTranspose_mul _ _
    _ = b.dagger.toMatrix b.dim * a.dagger.toMatrix b.dim := by
        rw [toMatrix_dagger h, toMatrix_dagger rfl]
    _ = (b.dagger.mul a.dagger).toMatrix b.dim := (toMatrix_mul rfl).symm

/-- The conjugate transpose of the conjugate transpose is the matrix itself. -/
theorem dagger_dagger (hfull : m.isFull = true) : m.dagger.dagger = m := by
  refine eq_of_toMatrix (d := m.dim) (isFull_ofFn _ _) hfull rfl rfl ?_
  have htwice : m.dagger.dagger.toMatrix m.dim = (m.dagger.toMatrix m.dim)ᴴ := toMatrix_dagger rfl
  rw [htwice, toMatrix_dagger rfl, Matrix.conjTranspose_conjTranspose]

end SquareMatrix

/-! ## Gates one after another -/

namespace Gate

variable {n : ℕ} {g h f : Gate ℝ} {v : Array (Amplitude ℝ)}

/-- A gate with the identity as its matrix does nothing. -/
theorem act_of_identity (hn : n < 64) (hqs : g.qubits.Nodup) (hlt : ∀ q ∈ g.qubits, q < n)
    (hmatrix : g.matrix = .identity (2 ^ g.qubits.length)) (hsize : v.size = 2 ^ n) :
    g.act v = v := by
  have hdim : g.matrix.dim = 2 ^ g.qubits.length := by rw [hmatrix]; rfl
  refine eq_of_wave ((size_act g v).trans hsize) hsize ?_
  rw [wave_act hqs hlt hn hdim hsize, localMatrix, hmatrix, SquareMatrix.toMatrix_identity,
    applyAt_one, LinearMap.id_apply]

/-- **Two gates on one list of qubits** act as one with the product of their matrices. -/
theorem act_act (hn : n < 64) (hqs : g.qubits.Nodup) (hlt : ∀ q ∈ g.qubits, q < n)
    (hh : h.qubits = g.qubits) (hf : f.qubits = g.qubits) (hdim : g.matrix.dim = h.matrix.dim)
    (hmatrix : f.matrix = h.matrix.mul g.matrix) (hsize : v.size = 2 ^ n) :
    h.act (g.act v) = f.act v := by
  have hdim' : f.matrix.dim = h.matrix.dim := by rw [hmatrix]; rfl
  by_cases hside : g.matrix.dim = 2 ^ g.qubits.length
  · have hproduct : f.matrix.toMatrix (2 ^ g.qubits.length) =
        h.matrix.toMatrix (2 ^ g.qubits.length) * g.matrix.toMatrix (2 ^ g.qubits.length) := by
      rw [hmatrix, SquareMatrix.toMatrix_mul (hdim ▸ hside)]
    have hsize' := (size_act g v).trans hsize
    refine eq_of_wave ((size_act h _).trans hsize') ((size_act f v).trans hsize) ?_
    have hwave : wave (g.act v) = g.operator (wave v) := wave_act hqs hlt hn hside hsize
    have hwave' : wave (h.act (g.act v)) = h.operator (wave (g.act v)) :=
      wave_act (hh ▸ hqs) (hh ▸ hlt) hn (by rw [← hdim, hside, hh]) hsize'
    have hwave'' : wave (f.act v) = f.operator (wave v) :=
      wave_act (hf ▸ hqs) (hf ▸ hlt) hn (by rw [hdim', ← hdim, hside, hf]) hsize
    rw [hwave', hwave, hwave'', operator_eq hh, operator_eq hf, hproduct, applyAt_mul hqs]
    rfl
  · -- a side that does not fit the qubits fits none of the three gates
    have hlen := length_lt_of_nodup hqs hlt hn
    have hskip : ∀ {e : Gate ℝ}, e.qubits = g.qubits → e.matrix.dim = g.matrix.dim →
        ∀ w, e.act w = w := by
      intro e hqubits hmatrix w
      refine act_of_dim_ne ?_ w
      rwa [hmatrix, width, hqubits, dimension_eq hlen]
    rw [hskip rfl rfl v, hskip hh hdim.symm v, hskip hf (hdim'.trans hdim.symm) v]

/-- The product of the matrices of some gates, the first gate on the right. -/
noncomputable def matrixProduct (d : ℕ) (gs : List (Gate ℝ)) : SquareMatrix ℝ :=
  gs.foldl (fun m g => g.matrix.mul m) (.identity d)

theorem matrixProduct_append_singleton (d : ℕ) (gs : List (Gate ℝ)) (g : Gate ℝ) :
    matrixProduct d (gs ++ [g]) = g.matrix.mul (matrixProduct d gs) := by
  rw [matrixProduct, List.foldl_append]
  rfl

theorem dim_matrixProduct {d : ℕ} {gs : List (Gate ℝ)} (hgs : ∀ g ∈ gs, g.matrix.dim = d) :
    (matrixProduct d gs).dim = d := by
  induction gs using List.reverseRecOn with
  | nil => rfl
  | append_singleton gs g _ =>
    rw [matrixProduct_append_singleton]
    exact hgs g (by simp)

/-- **Any number of gates on one list of qubits** act as one with the product of their matrices. -/
theorem actAll_eq_act (hn : n < 64) (hqs : f.qubits.Nodup) (hlt : ∀ q ∈ f.qubits, q < n)
    {gs : List (Gate ℝ)}
    (hgs : ∀ g ∈ gs, g.qubits = f.qubits ∧ g.matrix.dim = 2 ^ f.qubits.length)
    (hmatrix : f.matrix = matrixProduct (2 ^ f.qubits.length) gs) (hsize : v.size = 2 ^ n) :
    actAll gs v = f.act v := by
  induction gs using List.reverseRecOn generalizing f with
  | nil => exact (act_of_identity hn hqs hlt hmatrix hsize).symm
  | append_singleton gs g ih =>
    obtain ⟨hbefore, hlast⟩ := List.forall_mem_append.1 hgs
    obtain ⟨hqubits, hdim⟩ := hlast g (List.mem_singleton_self g)
    -- the gates before the last one make a gate of their own
    let before : Gate ℝ := { f with ownMatrix := some (matrixProduct (2 ^ f.qubits.length) gs) }
    have hdim' : before.matrix.dim = g.matrix.dim :=
      (dim_matrixProduct fun e he => (hbefore e he).2).trans hdim.symm
    have hproduct : f.matrix = g.matrix.mul before.matrix :=
      hmatrix.trans (matrixProduct_append_singleton _ gs g)
    have hrest : actAll gs v = before.act v := ih hqs hlt hbefore rfl
    calc actAll (gs ++ [g]) v = g.act (actAll gs v) := List.foldl_append ..
      _ = g.act (before.act v) := by rw [hrest]
      _ = f.act v := act_act (g := before) hn hqs hlt hqubits rfl hdim' hproduct hsize

end Gate

/-! ## Both together -/

/-- **Products of matrices are gates one after another.** Two matrices that fill squares of one side
have a product, which fills a square of that side and has the entries that their product has as
matrices, though zeros of the left factor are skipped. The conjugate transpose is that of matrices,
it turns a product around, and taken twice it gives a matrix back. On a register a gate followed by
another one on the same qubits, in the same order, acts on every vector as one gate with the product
of their matrices, the second matrix on the left, whether or not the side fits the qubits; and so do
any number of gates whose matrices fit. -/
theorem product_acts_in_turn :
    (∀ {a b : SquareMatrix ℝ} {d : ℕ}, a.isFull = true → b.isFull = true → a.dim = d →
      b.dim = d → ∃ c, a.mul? b = some c ∧ c.dim = d ∧ c.isFull = true ∧
        c.toMatrix d = a.toMatrix d * b.toMatrix d ∧ c.dagger = b.dagger.mul a.dagger) ∧
    (∀ {a : SquareMatrix ℝ} {d : ℕ}, a.isFull = true → a.dim = d →
      a.dagger.dim = d ∧ a.dagger.isFull = true ∧ a.dagger.toMatrix d = (a.toMatrix d)ᴴ ∧
        a.dagger.dagger = a) ∧
    (∀ {n : ℕ} {g h f : Gate ℝ} {v : Array (Amplitude ℝ)}, n < 64 → g.qubits.Nodup →
      (∀ q ∈ g.qubits, q < n) → h.qubits = g.qubits → f.qubits = g.qubits →
      h.matrix.mul? g.matrix = some f.matrix → v.size = 2 ^ n → h.act (g.act v) = f.act v) ∧
    ∀ {n : ℕ} {gs : List (Gate ℝ)} {f : Gate ℝ} {v : Array (Amplitude ℝ)}, n < 64 →
      f.qubits.Nodup → (∀ q ∈ f.qubits, q < n) →
      (∀ g ∈ gs, g.qubits = f.qubits ∧ g.matrix.dim = 2 ^ f.qubits.length) →
      f.matrix = matrixProduct (2 ^ f.qubits.length) gs → v.size = 2 ^ n →
      actAll gs v = f.act v := by
  refine ⟨?product, ?transpose, ?two, ?many⟩
  case product =>
    intro a b d _ _ ha hb
    exact ⟨a.mul b, if_pos (ha.trans hb.symm), ha, SquareMatrix.isFull_ofFn _ _,
      SquareMatrix.toMatrix_mul ha, SquareMatrix.dagger_mul (ha.trans hb.symm)⟩
  case transpose =>
    intro a d hfull ha
    exact ⟨ha, SquareMatrix.isFull_ofFn _ _, SquareMatrix.toMatrix_dagger ha,
      SquareMatrix.dagger_dagger hfull⟩
  case two =>
    intro n g h f v hn hqs hlt hh hf hmatrix hsize
    obtain ⟨hdim, hproduct⟩ := SquareMatrix.mul?_eq_some_iff.1 hmatrix
    exact act_act hn hqs hlt hh hf hdim.symm hproduct.symm hsize
  case many =>
    intro n gs f v hn hqs hlt hgs hmatrix hsize
    exact actAll_eq_act hn hqs hlt hgs hmatrix hsize

/-- The matrix that moves each of four values to the next place. -/
noncomputable def shift : SquareMatrix ℝ :=
  .ofRows [[0, 0, 0, 1], [1, 0, 0, 0], [0, 1, 0, 0], [0, 0, 1, 0]]

/-- The matrix that turns the second of four values by a quarter. -/
noncomputable def tilt : SquareMatrix ℝ :=
  .ofRows [[1, 0, 0, 0], [0, Amplitude.i, 0, 0], [0, 0, 1, 0], [0, 0, 0, 1]]

/-- A gate with a matrix of its own on the third qubit and the first. -/
noncomputable def across (m : SquareMatrix ℝ) : Gate ℝ := ⟨.custom, [2, 0], .empty, some m, 1⟩

/-- The order of the factors shows in the product, and the gates meet their matrices in turn. -/
theorem product_acts_in_turn_across :
    (∃ c, tilt.mul? shift = some c ∧ (c.entry 1 0).toComplex = Complex.I) ∧
    (∃ c, shift.mul? tilt = some c ∧ (c.entry 1 0).toComplex = 1 ∧
      c.dagger = tilt.dagger.mul shift.dagger) ∧
    shift.dagger.dagger = shift ∧
    ∀ v : Array (Amplitude ℝ), v.size = 2 ^ 3 →
      (across tilt).act ((across shift).act v) = (across (tilt.mul shift)).act v ∧
      actAll [across shift, across tilt, across shift] v =
        (across (matrixProduct 4 [across shift, across tilt, across shift])).act v := by
  obtain ⟨hproduct, htranspose, htwo, hmany⟩ := product_acts_in_turn
  obtain ⟨c, hc, -, -, hentries, -⟩ :=
    hproduct (a := tilt) (b := shift) (d := 4) rfl rfl rfl rfl
  obtain ⟨c', hc', -, -, hentries', hdagger⟩ :=
    hproduct (a := shift) (b := tilt) (d := 4) rfl rfl rfl rfl
  have hturned : (c.entry 1 0).toComplex = Complex.I := by
    refine (congrFun (congrFun hentries 1) 0).trans ?_
    rw [Matrix.mul_apply, Fin.sum_univ_four]
    simp [SquareMatrix.toMatrix, SquareMatrix.entry, SquareMatrix.ofRows, tilt, shift]
  have hkept : (c'.entry 1 0).toComplex = 1 := by
    refine (congrFun (congrFun hentries' 1) 0).trans ?_
    rw [Matrix.mul_apply, Fin.sum_univ_four]
    simp [SquareMatrix.toMatrix, SquareMatrix.entry, SquareMatrix.ofRows, tilt, shift]
  have hqs : [2, 0].Nodup := by decide
  have hlt : ∀ q ∈ [2, 0], q < 3 := by decide
  have hgates : ∀ g ∈ [across shift, across tilt, across shift],
      g.qubits = [2, 0] ∧ g.matrix.dim = 2 ^ 2 := by
    simp only [List.forall_mem_cons, List.not_mem_nil, IsEmpty.forall_iff, implies_true, and_true]
    exact ⟨⟨rfl, rfl⟩, ⟨rfl, rfl⟩, rfl, rfl⟩
  refine ⟨⟨c, hc, hturned⟩, ⟨c', hc', hkept, hdagger⟩, (htranspose rfl rfl).2.2.2,
    fun v hsize => ?_⟩
  constructor
  · exact htwo (g := across shift) (by decide) hqs hlt rfl rfl (if_pos rfl) hsize
  · exact hmany (by decide) hqs hlt hgates rfl hsize

end QuantumWorkbench
