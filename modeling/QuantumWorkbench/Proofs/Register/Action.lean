import Mathlib
import QuantumWorkbench.Proofs.Exact
import QuantumWorkbench.Proofs.Register.Operator

/-!
# What a gate does to a vector

`Gate.act` sweeps over the blocks of a vector and overwrites each from its own old amplitudes. The
main statement of the first part says what this comes to at one index, over any scalars: the new
amplitude is the product of the row of that index with the old amplitudes at the indices that differ
from it at the qubits of the gate. Over the real numbers this is the operator of the matrix.
-/

namespace QuantumWorkbench.Register

/-! ## Writing at several places -/

section Writing

variable {β : Type} (p : ℕ → ℕ) (v : ℕ → β)

/-- Writes a value at every place of a list of places. -/
private def writeAll (d : ℕ) (a : Array β) : Array β :=
  (List.range d).foldl (fun acc r => acc.setIfInBounds (p r) (v r)) a

private theorem writeAll_succ (d : ℕ) (a : Array β) :
    writeAll p v (d + 1) a = (writeAll p v d a).setIfInBounds (p d) (v d) := by
  rw [writeAll, List.range_succ, List.foldl_append]
  rfl

private theorem size_writeAll (d : ℕ) (a : Array β) : (writeAll p v d a).size = a.size := by
  induction d with
  | zero => rfl
  | succ d ih => rw [writeAll_succ, Array.size_setIfInBounds, ih]

private theorem getD_setIfInBounds (a : Array β) (i j : ℕ) (b z : β) :
    (a.setIfInBounds i b).getD j z = if i = j ∧ i < a.size then b else a.getD j z := by
  rw [Array.getD_eq_getD_getElem?, Array.getD_eq_getD_getElem?, Array.getElem?_setIfInBounds]
  by_cases hij : i = j
  · by_cases hi : i < a.size
    · simp [hij, hij ▸ hi]
    · have hj : ¬ j < a.size := hij ▸ hi
      simp [hij, hj]
  · simp [hij]

variable {p}

private theorem getD_writeAll_place {d : ℕ} (hp : ∀ r < d, ∀ s < d, p r = p s → r = s) {r : ℕ}
    (hr : r < d) {a : Array β} (hlt : p r < a.size) (z : β) :
    (writeAll p v d a).getD (p r) z = v r := by
  induction d with
  | zero => exact absurd hr (Nat.not_lt_zero r)
  | succ d ih =>
    rw [writeAll_succ, getD_setIfInBounds, size_writeAll]
    by_cases hrd : r = d
    · subst hrd
      rw [if_pos ⟨rfl, hlt⟩]
    · have hne : p d ≠ p r := fun h => hrd (hp d (Nat.lt_succ_self d) r hr h).symm
      rw [if_neg fun h => hne h.1]
      exact ih (fun s hs t ht => hp s (Nat.lt_succ_of_lt hs) t (Nat.lt_succ_of_lt ht)) (by omega)

private theorem getD_writeAll_of_ne {d : ℕ} {x : ℕ} (hx : ∀ r < d, p r ≠ x) (a : Array β) (z : β) :
    (writeAll p v d a).getD x z = a.getD x z := by
  induction d with
  | zero => rfl
  | succ d ih =>
    rw [writeAll_succ, getD_setIfInBounds, if_neg fun h => hx d (Nat.lt_succ_self d) h.1]
    exact ih fun r hr => hx r (Nat.lt_succ_of_lt hr)

end Writing

/-! ## One block -/

variable {α : Type} [Scalar α]

/-- The amplitudes of a vector at the indices that agree with a given one outside some qubits. -/
def blockAt (qs : List ℕ) (amplitudes : Array (Amplitude α)) (x : ℕ) : List (Amplitude α) :=
  (List.range (2 ^ qs.length)).map fun c => amplitudes.getD (putBits qs c x) 0

/-- The new amplitude of an index: its row times its block. -/
def newAmplitude (qs : List ℕ) (m : SquareMatrix α) (amplitudes : Array (Amplitude α)) (x : ℕ) :
    Amplitude α :=
  Gate.rowProduct m (bitsAt qs x) (blockAt qs amplitudes x)

theorem blockAt_putBits (qs : List ℕ) (amplitudes : Array (Amplitude α)) (c x : ℕ) :
    blockAt qs amplitudes (putBits qs c x) = blockAt qs amplitudes x := by
  simp only [blockAt, putBits_putBits]

/-- Items that are computed from their places, with these places. -/
theorem zipIdx_map_range {β : Type} (f : ℕ → β) (n : ℕ) :
    ((List.range n).map f).zipIdx = (List.range n).map fun c => (f c, c) := by
  apply List.ext_getElem (by simp)
  intro i h₁ h₂
  simp

/-- The product of a row with a block, term by term in the order of the columns. -/
theorem newAmplitude_eq_sum (qs : List ℕ) (m : SquareMatrix α) (v : Array (Amplitude α)) (x : ℕ) :
    newAmplitude qs m v x = Amplitude.sum ((List.range (2 ^ qs.length)).map fun col =>
      m.entry (bitsAt qs x) col * v.getD (putBits qs col x) 0) := by
  rw [newAmplitude, Gate.rowProduct, blockAt, zipIdx_map_range, List.map_map]
  rfl

private theorem size_actOnBlock (m : SquareMatrix α) (offsets : List ℕ)
    (acc : Array (Amplitude α)) (base : ℕ) :
    (Gate.actOnBlock m offsets acc base).size = acc.size := by
  unfold Gate.actOnBlock
  generalize offsets.map (fun offset => acc.getD (base ||| offset) 0) = block
  -- the fold writes into an accumulator of its own
  induction offsets.zipIdx generalizing acc with
  | nil => rfl
  | cons o places ih => rw [List.foldl_cons, ih, Array.size_setIfInBounds]

section Block

variable {n : ℕ} {qs : List ℕ} (hqs : qs.Nodup) (hlt : ∀ q ∈ qs, q < n) (hn : n < 64)
include hqs hlt hn

theorem length_lt_of_nodup : qs.length < 64 := by
  have hsub : qs ⊆ List.range n := fun q hq => List.mem_range.2 (hlt q hq)
  have hle := (hqs.subperm hsub).length_le
  rw [List.length_range] at hle
  omega

/-- Multiplying one block is writing the new amplitudes at its places. -/
private theorem actOnBlock_eq (m : SquareMatrix α) (acc : Array (Amplitude α)) {x : ℕ}
    (hx : putBits qs 0 x = x) :
    Gate.actOnBlock m ((List.range (2 ^ qs.length)).map (Gate.spread qs)) acc x =
      writeAll (fun c => putBits qs c x) (fun c => Gate.rowProduct m c (blockAt qs acc x))
        (2 ^ qs.length) acc := by
  have hlt64 : ∀ q ∈ qs, q < 64 := fun q hq => (hlt q hq).trans hn
  have hlen := (length_lt_of_nodup hqs hlt hn).le
  have hblock : ((List.range (2 ^ qs.length)).map (Gate.spread qs)).map
      (fun offset => acc.getD (x ||| offset) 0) = blockAt qs acc x := by
    rw [List.map_map]
    exact List.map_congr_left fun c _ =>
      congrArg (acc.getD · 0) (or_spread hqs hlt64 hlen hx c)
  rw [Gate.actOnBlock, hblock, zipIdx_map_range, List.foldl_map, writeAll]
  congr 1
  funext acc' c
  dsimp only
  rw [or_spread hqs hlt64 hlen hx c]

/-- **One block**: the indices over its base get their new amplitudes, and the others stay. -/
theorem getD_actOnBlock (m : SquareMatrix α) {acc : Array (Amplitude α)} (hsize : acc.size = 2 ^ n)
    {base x : ℕ} (hbase : putBits qs 0 base = base) (hx : x < 2 ^ n) :
    (Gate.actOnBlock m ((List.range (2 ^ qs.length)).map (Gate.spread qs)) acc base).getD x 0 =
      if putBits qs 0 x = base then newAmplitude qs m acc x else acc.getD x 0 := by
  have hplaces : ∀ r < 2 ^ qs.length, ∀ s < 2 ^ qs.length,
      putBits qs r base = putBits qs s base → r = s := fun r hr s hs h => by
    rw [← bitsAt_putBits hqs hr base, h, bitsAt_putBits hqs hs base]
  rw [actOnBlock_eq hqs hlt hn m acc hbase]
  split_ifs with hover
  · -- the index is the place of its own bits in the block
    have hplace : putBits qs (bitsAt qs x) base = x := by
      rw [← hover, putBits_putBits, putBits_bitsAt]
    have hnew := getD_writeAll_place (fun c => Gate.rowProduct m c (blockAt qs acc base)) hplaces
      (bitsAt_lt qs x) (a := acc) (by rw [hplace, hsize]; exact hx) 0
    rw [hplace] at hnew
    rw [hnew, newAmplitude, ← hover, blockAt_putBits]
  · exact getD_writeAll_of_ne _ (fun r _ h => hover (by rw [← h, putBits_putBits, hbase])) acc 0

/-- After the blocks of the bases below a bound, exactly the indices over these bases are new. -/
theorem getD_fold_actOnBlock (m : SquareMatrix α) {amplitudes : Array (Amplitude α)}
    (hsize : amplitudes.size = 2 ^ n) {b : ℕ} (hb : b ≤ 2 ^ n) :
    let swept := b.fold (fun base _ acc =>
      if base &&& Gate.occupied qs = 0 then
        Gate.actOnBlock m ((List.range (2 ^ qs.length)).map (Gate.spread qs)) acc base
      else acc) amplitudes
    swept.size = 2 ^ n ∧ ∀ x, x < 2 ^ n → swept.getD x 0 =
      if putBits qs 0 x < b then newAmplitude qs m amplitudes x else amplitudes.getD x 0 := by
  have hlt64 : ∀ q ∈ qs, q < 64 := fun q hq => (hlt q hq).trans hn
  induction b with
  | zero => exact ⟨hsize, fun x _ => by simp⟩
  | succ b ih =>
    obtain ⟨hsz, hval⟩ := ih (by omega)
    rw [Nat.fold_succ]
    dsimp only
    generalize hacc : b.fold (fun base _ acc =>
      if base &&& Gate.occupied qs = 0 then
        Gate.actOnBlock m ((List.range (2 ^ qs.length)).map (Gate.spread qs)) acc base
      else acc) amplitudes = acc at hsz hval ⊢
    have hiff {x : ℕ} (hne : putBits qs 0 x ≠ b) :
        putBits qs 0 x < b + 1 ↔ putBits qs 0 x < b := by omega
    by_cases hbase : b &&& Gate.occupied qs = 0
    · have hfix := (and_occupied_eq_zero_iff hlt64 b).1 hbase
      rw [if_pos hbase]
      refine ⟨(size_actOnBlock m _ acc b).trans hsz, fun x hx => ?_⟩
      rw [getD_actOnBlock hqs hlt hn m hsz hfix hx]
      split_ifs with hover hlast hlast
      · -- the block at `b` still holds the old amplitudes
        have hblock : blockAt qs acc x = blockAt qs amplitudes x := by
          apply List.map_congr_left
          intro c _
          rw [hval _ (putBits_lt hlt hx c), putBits_putBits, hover, if_neg (lt_irrefl b)]
        rw [newAmplitude, newAmplitude, hblock]
      · omega
      · rw [hval x hx, if_pos ((hiff hover).1 hlast)]
      · rw [hval x hx, if_neg (mt (hiff hover).2 hlast)]
    · -- no index lies over a base that is skipped
      rw [if_neg hbase]
      refine ⟨hsz, fun x hx => ?_⟩
      have hxb : putBits qs 0 x ≠ b := fun h =>
        hbase ((and_occupied_eq_zero_iff hlt64 b).2 (by rw [← h, putBits_putBits]))
      rw [hval x hx]
      simp only [hiff hxb]

end Block

/-! ## The whole vector -/

section Act

variable {n : ℕ} {g : Gate α} (hqs : g.qubits.Nodup) (hlt : ∀ q ∈ g.qubits, q < n) (hn : n < 64)
  {amplitudes : Array (Amplitude α)} (hsize : amplitudes.size = 2 ^ n)

theorem size_act (g : Gate α) (amplitudes : Array (Amplitude α)) :
    (g.act amplitudes).size = amplitudes.size := by
  have hfold : ∀ (b : ℕ) (offsets : List ℕ) (m : SquareMatrix α) (occupied : ℕ),
      (b.fold (fun base _ acc => if base &&& occupied = 0 then
        Gate.actOnBlock m offsets acc base else acc) amplitudes).size = amplitudes.size := by
    intro b offsets m occupied
    induction b with
    | zero => rfl
    | succ b ih =>
      rw [Nat.fold_succ]
      split
      · rw [size_actOnBlock, ih]
      · exact ih
  unfold Gate.act
  dsimp only
  split
  · exact hfold _ _ _ _
  · rfl

include hqs hlt hn hsize

/-- **The new amplitude at an index** is the product of its row of the matrix with the old
amplitudes of its block. -/
theorem getD_act (hdim : g.matrix.dim = 2 ^ g.qubits.length) {x : ℕ} (hx : x < 2 ^ n) :
    (g.act amplitudes).getD x 0 = newAmplitude g.qubits g.matrix amplitudes x := by
  have hlen := length_lt_of_nodup hqs hlt hn
  have hcond : g.matrix.dim = Qubit.dimension g.width := by
    rw [hdim, Gate.width, dimension_eq hlen]
  have hoffsets : g.offsets = (List.range (2 ^ g.qubits.length)).map (Gate.spread g.qubits) := by
    rw [Gate.offsets, Gate.width, dimension_eq hlen]
  have hswept := (getD_fold_actOnBlock hqs hlt hn g.matrix hsize le_rfl).2 x hx
  rw [if_pos (putBits_lt hlt hx 0)] at hswept
  unfold Gate.act
  dsimp only
  rw [if_pos hcond, hoffsets, hsize]
  exact hswept

end Act

/-! ## Exact arithmetic -/

/-- The amplitudes of a vector as a wave, zero beyond the vector. -/
noncomputable def wave (amplitudes : Array (Amplitude ℝ)) : Wave :=
  fun x => (amplitudes.getD x 0).toComplex

/-- The matrix of a gate, on as many qubits as the gate has. -/
noncomputable def localMatrix (g : Gate ℝ) : LocalMatrix g.qubits :=
  g.matrix.toMatrix (2 ^ g.qubits.length)

/-- **A gate acts as the operator of its matrix**. -/
theorem wave_act {n : ℕ} {g : Gate ℝ} (hqs : g.qubits.Nodup) (hlt : ∀ q ∈ g.qubits, q < n)
    (hn : n < 64) (hdim : g.matrix.dim = 2 ^ g.qubits.length) {amplitudes : Array (Amplitude ℝ)}
    (hsize : amplitudes.size = 2 ^ n) :
    wave (g.act amplitudes) = applyAt g.qubits (localMatrix g) (wave amplitudes) := by
  funext x
  rw [applyAt_apply]
  by_cases hx : x < 2 ^ n
  · rw [wave, getD_act hqs hlt hn hsize hdim hx, newAmplitude_eq_sum, Amplitude.toComplex_sum,
      List.map_map]
    exact Finset.sum_range fun c => (g.matrix.entry (bitsAt g.qubits x) c).toComplex *
      wave amplitudes (putBits g.qubits c x)
  · -- beyond the register both sides vanish
    have hzero : ∀ y, ¬ y < 2 ^ n → wave amplitudes y = 0 := fun y hy => by
      have hle : amplitudes.size ≤ y := by omega
      simp [wave, Array.getD, hsize, hy]
    have hside : wave (g.act amplitudes) x = 0 := by
      have hle : ¬ x < (g.act amplitudes).size := by rw [size_act, hsize]; exact hx
      simp [wave, Array.getD, hle]
    rw [hside]
    refine (Finset.sum_eq_zero fun c _ => ?_).symm
    rw [hzero _ (fun h => hx ((putBits_lt_iff hlt).1 h)), mul_zero]

end QuantumWorkbench.Register
