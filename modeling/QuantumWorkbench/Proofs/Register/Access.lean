import Mathlib
import QuantumWorkbench.Proofs.Register.Action

/-!
# Accesses of a sweep

A gate overwrites the vector that it reads from. The accesses of its sweep are listed here as they
are made, each read with the amplitude that stands in the vector at that moment. The blocks share no
place and together make up the register, so every place is written once, and what is read is what
stood there before the gate.
-/

namespace QuantumWorkbench

open Register

/-- An access to a vector: a place, with the amplitude that is read from it or written to it. -/
inductive Access (α : Type) where
  | read (place : ℕ) (z : Amplitude α)
  | write (place : ℕ) (z : Amplitude α)

namespace Access

variable {α : Type}

/-- The place that an access writes to. -/
def written? : Access α → Option ℕ
  | read .. => none
  | write place _ => some place

variable [Scalar α]

/-- Accesses carried out one after another lead from one vector to another. Every place lies in the
vector, and a read finds what stands there. -/
inductive Leads : Array (Amplitude α) → List (Access α) → Array (Amplitude α) → Prop where
  | done (v) : Leads v [] v
  | read {v w place accesses} (hplace : place < v.size) (h : Leads v accesses w) :
      Leads v (.read place (v.getD place 0) :: accesses) w
  | write {v w place z accesses} (hplace : place < v.size)
      (h : Leads (v.setIfInBounds place z) accesses w) : Leads v (.write place z :: accesses) w

variable {u v w : Array (Amplitude α)} {as bs : List (Access α)}

theorem Leads.append (h : Leads u as v) (h' : Leads v bs w) : Leads u (as ++ bs) w := by
  induction h with
  | done => exact h'
  | read hplace _ ih => exact .read hplace (ih h')
  | write hplace _ ih => exact .write hplace (ih h')

theorem leads_reads (places : List ℕ) (hplaces : ∀ p ∈ places, p < v.size) :
    Leads v (places.map fun p => .read p (v.getD p 0)) v := by
  induction places with
  | nil => exact .done v
  | cons p places ih =>
    obtain ⟨hp, hplaces⟩ := List.forall_mem_cons.1 hplaces
    exact .read hp (ih hplaces)

theorem leads_writes (ws : List (ℕ × Amplitude α)) (hws : ∀ w ∈ ws, w.1 < v.size) :
    Leads v (ws.map fun w => .write w.1 w.2)
      (ws.foldl (fun acc w => acc.setIfInBounds w.1 w.2) v) := by
  induction ws generalizing v with
  | nil => exact .done v
  | cons w ws ih =>
    obtain ⟨hw, hws⟩ := List.forall_mem_cons.1 hws
    exact .write hw (ih fun w' hw' => by rw [Array.size_setIfInBounds]; exact hws w' hw')

end Access

namespace Gate

variable {α : Type} [Scalar α]

/-! ## One block -/

/-- The accesses to the block at a base index: all of it is read, and then all of it written. -/
def blockAccesses (m : SquareMatrix α) (offsets : List ℕ) (v : Array (Amplitude α)) (base : ℕ) :
    List (Access α) :=
  let block := offsets.map fun offset => v.getD (base ||| offset) 0
  (offsets.map fun offset => .read (base ||| offset) (v.getD (base ||| offset) 0)) ++
    offsets.zipIdx.map fun (offset, row) => .write (base ||| offset) (rowProduct m row block)

theorem leads_blockAccesses (m : SquareMatrix α) {offsets : List ℕ} {v : Array (Amplitude α)}
    {base : ℕ} (hplaces : ∀ offset ∈ offsets, base ||| offset < v.size) :
    Access.Leads v (blockAccesses m offsets v base) (actOnBlock m offsets v base) := by
  have hreads := Access.leads_reads (v := v) (offsets.map (base ||| ·))
    (List.forall_mem_map.2 hplaces)
  let block := offsets.map fun offset => v.getD (base ||| offset) 0
  have hwrites := Access.leads_writes (v := v)
    (offsets.zipIdx.map fun e => (base ||| e.1, rowProduct m e.2 block))
    (List.forall_mem_map.2 fun e he => hplaces e.1 (List.fst_mem_of_mem_zipIdx he))
  rw [List.map_map] at hreads hwrites
  rw [List.foldl_map] at hwrites
  exact hreads.append hwrites

theorem blockAccesses_congr (m : SquareMatrix α) {offsets : List ℕ} {v w : Array (Amplitude α)}
    {base : ℕ} (h : ∀ offset ∈ offsets, v.getD (base ||| offset) 0 = w.getD (base ||| offset) 0) :
    blockAccesses m offsets v base = blockAccesses m offsets w base := by
  have hreads : (offsets.map fun offset =>
      Access.read (base ||| offset) (v.getD (base ||| offset) 0)) =
      offsets.map fun offset => Access.read (base ||| offset) (w.getD (base ||| offset) 0) :=
    List.map_congr_left fun offset hoffset => by rw [h offset hoffset]
  rw [blockAccesses, blockAccesses, hreads, List.map_congr_left h]

theorem written_blockAccesses (m : SquareMatrix α) (offsets : List ℕ) (v : Array (Amplitude α))
    (base : ℕ) : (blockAccesses m offsets v base).filterMap Access.written? =
      offsets.map (base ||| ·) := by
  have hreads : ((offsets.map fun offset =>
      Access.read (base ||| offset) (v.getD (base ||| offset) 0)).filterMap Access.written?) = [] := by
    rw [List.filterMap_map]
    exact List.filterMap_eq_nil_iff.2 fun _ _ => rfl
  rw [blockAccesses, List.filterMap_append, hreads, List.nil_append, List.filterMap_map]
  have hsome : (Access.written? ∘ fun e : ℕ × ℕ => (Access.write (base ||| e.1)
      (rowProduct m e.2 (offsets.map fun offset => v.getD (base ||| offset) 0)) : Access α)) =
      fun e => some (base ||| e.1) := rfl
  refine (congrArg (List.filterMap · offsets.zipIdx) hsome).trans ?_
  rw [List.filterMap_eq_map']
  conv_rhs => rw [← List.zipIdx_map_fst 0 offsets, List.map_map]
  rfl

/-! ## The sweep -/

/-- One base index of a sweep: the block there is multiplied, and its accesses are noted. -/
def sweepStep (m : SquareMatrix α) (offsets : List ℕ) (occupied base : ℕ)
    (s : Array (Amplitude α) × List (Access α)) : Array (Amplitude α) × List (Access α) :=
  if base &&& occupied = 0 then
    (actOnBlock m offsets s.1 base, s.2 ++ blockAccesses m offsets s.1 base)
  else s

/-- The vector after the sweep of a gate, with the accesses of the sweep. -/
def actLogged (g : Gate α) (v : Array (Amplitude α)) : Array (Amplitude α) × List (Access α) :=
  if g.matrix.dim = Qubit.dimension g.width then
    v.size.fold (fun base _ => sweepStep g.matrix g.offsets (occupied g.qubits) base) (v, [])
  else (v, [])

theorem fst_fold_sweepStep (m : SquareMatrix α) (offsets : List ℕ) (occupied : ℕ)
    (v : Array (Amplitude α)) (b : ℕ) :
    (b.fold (fun base _ => sweepStep m offsets occupied base) (v, [])).1 =
      b.fold (fun base _ acc =>
        if base &&& occupied = 0 then actOnBlock m offsets acc base else acc) v := by
  induction b with
  | zero => rfl
  | succ b ih =>
    rw [Nat.fold_succ, Nat.fold_succ, ← ih, sweepStep]
    split <;> rfl

/-- Noting the accesses of a sweep changes nothing of what it does. -/
theorem fst_actLogged (g : Gate α) (v : Array (Amplitude α)) : (g.actLogged v).1 = g.act v := by
  unfold actLogged act
  dsimp only
  split
  · exact fst_fold_sweepStep _ _ _ _ _
  · rfl

section

variable {n : ℕ} {qs : List ℕ} (hqs : qs.Nodup) (hlt : ∀ q ∈ qs, q < n) (hn : n < 64)
include hqs hlt hn

/-- The places of the block at a base. -/
theorem map_or_spread {base : ℕ} (hbase : base &&& occupied qs = 0) :
    ((List.range (2 ^ qs.length)).map (spread qs)).map (base ||| ·) =
      (List.range (2 ^ qs.length)).map fun c => putBits qs c base := by
  have hlt64 : ∀ q ∈ qs, q < 64 := fun q hq => (hlt q hq).trans hn
  have hlen := (length_lt_of_nodup hqs hlt hn).le
  rw [List.map_map]
  exact List.map_congr_left fun c _ =>
    or_spread hqs hlt64 hlen ((and_occupied_eq_zero_iff hlt64 base).1 hbase) c

/-- The places of the block at a base of a register lie in the register. -/
theorem or_lt_of_mem_offsets {base offset : ℕ} (hbase : base &&& occupied qs = 0)
    (hlast : base < 2 ^ n) (h : offset ∈ (List.range (2 ^ qs.length)).map (spread qs)) :
    ∃ c, base ||| offset = putBits qs c base ∧ base ||| offset < 2 ^ n := by
  have hplace := List.mem_map_of_mem (f := (base ||| ·)) h
  rw [map_or_spread hqs hlt hn hbase] at hplace
  obtain ⟨c, -, hc⟩ := List.mem_map.1 hplace
  exact ⟨c, hc.symm, hc ▸ putBits_lt hlt hlast c⟩

/-- **The run of a sweep**: after the blocks of the bases below a bound, the accesses so far are
those to the old amplitudes of these blocks, and they lead to the vector so far. -/
theorem sweep_spec (m : SquareMatrix α) {v : Array (Amplitude α)} (hsize : v.size = 2 ^ n) {b : ℕ}
    (hb : b ≤ 2 ^ n) :
    let offsets := (List.range (2 ^ qs.length)).map (spread qs)
    let s := b.fold (fun base _ => sweepStep m offsets (occupied qs) base) (v, [])
    s.2 = ((List.range b).filter fun base => base &&& occupied qs = 0).flatMap
        (blockAccesses m offsets v) ∧
      Access.Leads v s.2 s.1 := by
  intro offsets
  induction b with
  | zero => exact ⟨rfl, .done v⟩
  | succ b ih =>
    obtain ⟨hlog, hleads⟩ := ih (by omega)
    obtain ⟨hsz, hval⟩ := getD_fold_actOnBlock hqs hlt hn m hsize (b := b) (by omega)
    rw [← fst_fold_sweepStep] at hsz hval
    rw [Nat.fold_succ, List.range_succ, List.filter_append, List.flatMap_append]
    generalize b.fold (fun base _ => sweepStep m offsets (occupied qs) base) (v, []) = s
      at hlog hleads hsz hval ⊢
    by_cases hbase : b &&& occupied qs = 0
    · have hplaces := fun offset (hoffset : offset ∈ offsets) =>
        or_lt_of_mem_offsets hqs hlt hn hbase hb hoffset
      -- the block at `b` still holds the old amplitudes
      have hblock : blockAccesses m offsets s.1 b = blockAccesses m offsets v b := by
        apply blockAccesses_congr
        intro offset hoffset
        obtain ⟨c, hc, hplace⟩ := hplaces offset hoffset
        have hfix := (and_occupied_eq_zero_iff (fun q hq => (hlt q hq).trans hn) b).1 hbase
        rw [hval _ hplace, hc, putBits_putBits, hfix, if_neg (lt_irrefl b)]
      have hstep : Access.Leads s.1 (blockAccesses m offsets s.1 b) (actOnBlock m offsets s.1 b) :=
        leads_blockAccesses m fun offset hoffset =>
          hsz.symm ▸ (hplaces offset hoffset).choose_spec.2
      rw [sweepStep, if_pos hbase, List.filter_cons_of_pos (by simpa using hbase),
        List.filter_nil, List.flatMap_singleton]
      exact ⟨by rw [hlog, hblock], hleads.append hstep⟩
    · rw [sweepStep, if_neg hbase, List.filter_cons_of_neg (by simpa using hbase),
        List.filter_nil, List.flatMap_nil, List.append_nil]
      exact ⟨hlog, hleads⟩

/-- **The blocks of a register** have every place of it, each in one block. -/
theorem perm_places :
    (((List.range (2 ^ n)).filter fun base => base &&& occupied qs = 0).flatMap fun base =>
      (List.range (2 ^ qs.length)).map fun c => putBits qs c base).Perm (List.range (2 ^ n)) := by
  have hlt64 : ∀ q ∈ qs, q < 64 := fun q hq => (hlt q hq).trans hn
  have hfix : ∀ base ∈ (List.range (2 ^ n)).filter fun base => base &&& occupied qs = 0,
      base < 2 ^ n ∧ putBits qs 0 base = base := fun base hbase => by
    rw [List.mem_filter, List.mem_range, decide_eq_true_iff, and_occupied_eq_zero_iff hlt64] at hbase
    exact hbase
  refine (List.perm_ext_iff_of_nodup (List.nodup_flatMap.2 ⟨fun base _ => ?_, ?_⟩)
    List.nodup_range).2 fun x => ?_
  · -- within a block a place tells its position
    refine List.Nodup.map_on (fun c hc d hd h => ?_) List.nodup_range
    rw [← bitsAt_putBits hqs (List.mem_range.1 hc) base, h, bitsAt_putBits hqs (List.mem_range.1 hd)]
  · -- a place tells the base of its block
    refine List.Pairwise.imp_of_mem (fun {base base'} hbase hbase' hne => ?_)
      (List.nodup_range.filter _)
    intro x hx hx'
    obtain ⟨c, -, rfl⟩ := List.mem_map.1 hx
    obtain ⟨d, -, h⟩ := List.mem_map.1 hx'
    have hclear := congrArg (putBits qs 0) h
    rw [putBits_putBits, putBits_putBits, (hfix _ hbase).2, (hfix _ hbase').2] at hclear
    exact hne hclear.symm
  · rw [List.mem_flatMap, List.mem_range]
    constructor
    · rintro ⟨base, hbase, hx⟩
      obtain ⟨c, -, rfl⟩ := List.mem_map.1 hx
      exact putBits_lt hlt (hfix base hbase).1 c
    · intro hx
      refine ⟨putBits qs 0 x, ?_, List.mem_map.2 ⟨bitsAt qs x, List.mem_range.2 (bitsAt_lt qs x),
        by rw [putBits_putBits, putBits_bitsAt]⟩⟩
      rw [List.mem_filter, List.mem_range, decide_eq_true_iff, and_occupied_eq_zero_iff hlt64,
        putBits_putBits]
      exact ⟨putBits_lt hlt hx 0, rfl⟩

/-- What the accesses to the block at a base read and write: old amplitudes are read, and the new
ones of their places written. -/
theorem mem_blockAccesses (m : SquareMatrix α) (v : Array (Amplitude α)) {base place : ℕ}
    (hbase : base &&& occupied qs = 0) {z : Amplitude α} :
    let accesses := blockAccesses m ((List.range (2 ^ qs.length)).map (spread qs)) v base
    (.read place z ∈ accesses → z = v.getD place 0) ∧
      (.write place z ∈ accesses → z = newAmplitude qs m v place) := by
  have hfix := (and_occupied_eq_zero_iff (fun q hq => (hlt q hq).trans hn) base).1 hbase
  intro accesses
  constructor
  · intro h
    rcases List.mem_append.1 h with h | h
    · obtain ⟨offset, -, h⟩ := List.mem_map.1 h
      obtain ⟨rfl, rfl⟩ := Access.read.inj h
      rfl
    · obtain ⟨e, -, h⟩ := List.mem_map.1 h
      cases h
  · intro h
    rcases List.mem_append.1 h with h | h
    · obtain ⟨offset, -, h⟩ := List.mem_map.1 h
      cases h
    · -- the position of a place in its block is what the bits of the place spell
      obtain ⟨⟨offset, row⟩, he, h⟩ := List.mem_map.1 h
      obtain ⟨rfl, rfl⟩ := Access.write.inj h
      obtain ⟨hrow, hoffset⟩ := List.mem_zipIdx' he
      have hlt' : row < 2 ^ qs.length := by simpa using hrow
      have hplaces := map_or_spread hqs hlt hn hbase
      have hplace : base ||| offset = putBits qs row base := by
        have hget := congrArg (·[row]?) hplaces
        simpa [hlt', hoffset] using hget
      have hblock : ((List.range (2 ^ qs.length)).map (spread qs)).map
          (fun offset => v.getD (base ||| offset) 0) = blockAt qs v base := by
        have hmap := congrArg (List.map (v.getD · 0)) hplaces
        rwa [List.map_map (l := List.map _ _), List.map_map (f := (putBits qs · base))] at hmap
      rw [hblock, hplace, newAmplitude, bitsAt_putBits hqs hlt', blockAt_putBits]

end

section

variable {n : ℕ} {g : Gate α} (hqs : g.qubits.Nodup) (hlt : ∀ q ∈ g.qubits, q < n) (hn : n < 64)
  (hdim : g.matrix.dim = 2 ^ g.qubits.length) {v : Array (Amplitude α)} (hsize : v.size = 2 ^ n)
include hqs hlt hn hdim hsize

/-- The accesses of a gate go from block to block, and lead to the new vector. -/
theorem actLogged_blocks :
    (g.actLogged v).2 = ((List.range (2 ^ n)).filter fun base =>
        base &&& occupied g.qubits = 0).flatMap
          (blockAccesses g.matrix ((List.range (2 ^ g.qubits.length)).map (spread g.qubits)) v) ∧
      Access.Leads v (g.actLogged v).2 (g.act v) := by
  have hlen := length_lt_of_nodup hqs hlt hn
  have hcond : g.matrix.dim = Qubit.dimension g.width := by
    rw [hdim, Gate.width, dimension_eq hlen]
  have hoffsets : g.offsets = (List.range (2 ^ g.qubits.length)).map (spread g.qubits) := by
    rw [Gate.offsets, Gate.width, dimension_eq hlen]
  have hlogged : g.actLogged v = (2 ^ n).fold (fun base _ => sweepStep g.matrix
      ((List.range (2 ^ g.qubits.length)).map (spread g.qubits)) (occupied g.qubits) base)
      (v, []) := by
    rw [actLogged, if_pos hcond, hoffsets, hsize]
  have hsweep := sweep_spec hqs hlt hn g.matrix hsize le_rfl
  rw [← fst_actLogged g v, hlogged]
  exact hsweep

/-- **The accesses of a gate.** They lead from the old vector to the new one; every place of the
register is written once; what is read is what stood there before the gate, and what is written is
the product of a row of the matrix with old amplitudes. -/
theorem actLogged_spec :
    let accesses := (g.actLogged v).2
    Access.Leads v accesses (g.act v) ∧
      (accesses.filterMap Access.written?).Perm (List.range (2 ^ n)) ∧
      ∀ place z, (.read place z ∈ accesses → z = v.getD place 0) ∧
        (.write place z ∈ accesses → z = newAmplitude g.qubits g.matrix v place) := by
  obtain ⟨hlog, hleads⟩ := actLogged_blocks hqs hlt hn hdim hsize
  intro accesses
  change accesses = _ at hlog
  refine ⟨hleads, ?_, fun place z => ?_⟩
  · have hwritten : accesses.filterMap Access.written? = ((List.range (2 ^ n)).filter fun base =>
        base &&& occupied g.qubits = 0).flatMap fun base =>
          (List.range (2 ^ g.qubits.length)).map fun c => putBits g.qubits c base := by
      rw [hlog, List.filterMap_flatMap]
      refine List.flatMap_congr fun base hbase => ?_
      rw [written_blockAccesses,
        map_or_spread hqs hlt hn (of_decide_eq_true (List.mem_filter.1 hbase).2)]
    exact hwritten ▸ perm_places hqs hlt hn
  · -- an access belongs to one block
    have hblock : ∀ {access : Access α}, access ∈ accesses → ∃ base,
        base &&& occupied g.qubits = 0 ∧ access ∈ blockAccesses g.matrix
          ((List.range (2 ^ g.qubits.length)).map (spread g.qubits)) v base := by
      intro access h
      obtain ⟨base, hbase, h⟩ := List.mem_flatMap.1 (hlog ▸ h)
      exact ⟨base, of_decide_eq_true (List.mem_filter.1 hbase).2, h⟩
    constructor
    · intro h
      obtain ⟨base, hbase, h⟩ := hblock h
      exact (mem_blockAccesses hqs hlt hn g.matrix v hbase).1 h
    · intro h
      obtain ⟨base, hbase, h⟩ := hblock h
      exact (mem_blockAccesses hqs hlt hn g.matrix v hbase).2 h

end

end Gate

end QuantumWorkbench
