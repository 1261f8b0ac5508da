import Mathlib
import QuantumWorkbench.State.Evolution

/-!
# Bits of a basis index

A gate sees a basis index through the bits of its own qubits. `bitsAt` spells those bits as a
number, the first qubit most significant, and `putBits` overwrites them with the bits of a number.
Reading and overwriting determine each other, overwriting at disjoint qubits can be done in either
order, and the places of a block in `Gate.act` are the overwritings of its base.
-/

namespace QuantumWorkbench.Register

/-! ## One bit -/

/-- The index with the bit of a qubit set to a value. -/
def setBit (q : ℕ) (b : Bool) (x : ℕ) : ℕ := if x.testBit q = b then x else x ^^^ 2 ^ q

theorem testBit_setBit (q : ℕ) (b : Bool) (x p : ℕ) :
    (setBit q b x).testBit p = if p = q then b else x.testBit p := by
  unfold setBit
  by_cases hp : p = q
  · subst hp
    by_cases hb : x.testBit p = b
    · rw [if_pos hb, if_pos rfl, hb]
    · -- the bit differs from `b`, and flipping it gives `b`
      rw [if_neg hb, if_pos rfl, Nat.testBit_xor, Nat.testBit_two_pow_self, Bool.xor_true]
      exact (Bool.eq_not.2 (Ne.symm hb)).symm
  · rw [if_neg hp]
    split
    · rfl
    · rw [Nat.testBit_xor, Nat.testBit_two_pow_of_ne (Ne.symm hp), Bool.xor_false]

/-! ## The bits of several qubits -/

/-- The bits of an index at some qubits, spelled as a number with the first qubit most
significant. -/
def bitsAt : List ℕ → ℕ → ℕ
  | [], _ => 0
  | q :: qs, x => 2 ^ qs.length * (x.testBit q).toNat + bitsAt qs x

/-- The index with its bits at some qubits replaced by those that a number spells. -/
def putBits : List ℕ → ℕ → ℕ → ℕ
  | [], _, x => x
  | q :: qs, c, x => setBit q (c.testBit qs.length) (putBits qs c x)

/-- The bit that a number spells for one of some qubits. -/
def bitFor : List ℕ → ℕ → ℕ → Bool
  | [], _, _ => false
  | q :: qs, c, p => if p = q then c.testBit qs.length else bitFor qs c p

theorem testBit_putBits (qs : List ℕ) (c x p : ℕ) :
    (putBits qs c x).testBit p = if p ∈ qs then bitFor qs c p else x.testBit p := by
  induction qs with
  | nil => simp [putBits]
  | cons q qs ih =>
    rw [putBits, testBit_setBit, ih, bitFor]
    by_cases hp : p = q
    · simp [hp]
    · simp [hp]

theorem testBit_putBits_of_notMem {qs : List ℕ} {p : ℕ} (hp : p ∉ qs) (c x : ℕ) :
    (putBits qs c x).testBit p = x.testBit p := by
  rw [testBit_putBits, if_neg hp]

theorem bitsAt_congr {qs : List ℕ} {x y : ℕ} (h : ∀ q ∈ qs, x.testBit q = y.testBit q) :
    bitsAt qs x = bitsAt qs y := by
  induction qs with
  | nil => rfl
  | cons q qs ih =>
    have hq := h q List.mem_cons_self
    have hqs := ih fun p hp => h p (List.mem_cons_of_mem q hp)
    rw [bitsAt, bitsAt, hq, hqs]

theorem bitsAt_lt (qs : List ℕ) (x : ℕ) : bitsAt qs x < 2 ^ qs.length := by
  induction qs with
  | nil => simp [bitsAt]
  | cons q qs ih =>
    have hbit : (x.testBit q).toNat ≤ 1 := Bool.toNat_le _
    have hprod : 2 ^ qs.length * (x.testBit q).toNat ≤ 2 ^ qs.length * 1 :=
      Nat.mul_le_mul_left _ hbit
    rw [bitsAt, List.length_cons, Nat.pow_succ]
    omega

/-- Only the low bits of a number are put. -/
theorem bitFor_two_pow_mul_add {qs : List ℕ} {k : ℕ} (hk : qs.length ≤ k) {c : ℕ} (hc : c < 2 ^ k)
    (a p : ℕ) : bitFor qs (2 ^ k * a + c) p = bitFor qs c p := by
  induction qs with
  | nil => rfl
  | cons q qs ih =>
    have hlt : qs.length < k := hk
    rw [bitFor, bitFor, ih hlt.le, Nat.testBit_two_pow_mul_add a hc, if_pos hlt]

theorem bitFor_bitsAt {qs : List ℕ} {p : ℕ} (hp : p ∈ qs) (x : ℕ) :
    bitFor qs (bitsAt qs x) p = x.testBit p := by
  induction qs with
  | nil => cases hp
  | cons q qs ih =>
    rw [bitFor, bitsAt]
    by_cases hpq : p = q
    · rw [if_pos hpq, Nat.testBit_two_pow_mul_add _ (bitsAt_lt qs x), if_neg (lt_irrefl _), hpq]
      cases x.testBit q <;> simp
    · have hmem : p ∈ qs := (List.mem_cons.1 hp).resolve_left hpq
      rw [if_neg hpq, bitFor_two_pow_mul_add le_rfl (bitsAt_lt qs x), ih hmem]

/-- Putting back the bits that were read changes nothing. -/
@[simp] theorem putBits_bitsAt (qs : List ℕ) (x : ℕ) : putBits qs (bitsAt qs x) x = x := by
  apply Nat.eq_of_testBit_eq
  intro p
  rw [testBit_putBits]
  split
  · next hp => exact bitFor_bitsAt hp x
  · rfl

/-- The bits that were put are read back. -/
theorem bitsAt_putBits {qs : List ℕ} (hqs : qs.Nodup) {c : ℕ} (hc : c < 2 ^ qs.length) (x : ℕ) :
    bitsAt qs (putBits qs c x) = c := by
  induction qs generalizing c with
  | nil => simp_all [bitsAt]
  | cons q qs ih =>
    obtain ⟨hq, hqs⟩ := List.nodup_cons.1 hqs
    have hdiv := Nat.div_add_mod c (2 ^ qs.length)
    have hmod : c % 2 ^ qs.length < 2 ^ qs.length := Nat.mod_lt _ (Nat.two_pow_pos _)
    have htop : c / 2 ^ qs.length = (c.testBit qs.length).toNat := by
      have hlt : c / 2 ^ qs.length < 2 :=
        Nat.div_lt_of_lt_mul (by rwa [List.length_cons, Nat.pow_succ] at hc)
      rw [Nat.testBit_eq_decide_div_mod_eq]
      interval_cases c / 2 ^ qs.length <;> rfl
    -- the qubits after the first read the same bits whether or not the first was set
    have hrest : bitsAt qs (putBits (q :: qs) c x) = c % 2 ^ qs.length := by
      rw [← ih hqs hmod]
      apply bitsAt_congr
      intro p hp
      have hpq : p ≠ q := fun h => hq (h ▸ hp)
      rw [putBits, testBit_setBit, if_neg hpq, testBit_putBits, testBit_putBits, if_pos hp,
        if_pos hp]
      conv_lhs => rw [← hdiv]
      exact bitFor_two_pow_mul_add le_rfl hmod _ p
    rw [bitsAt, hrest, putBits, testBit_setBit, if_pos rfl, ← htop, hdiv]

/-- Of two overwritings at the same qubits the later one counts. -/
@[simp] theorem putBits_putBits (qs : List ℕ) (c d x : ℕ) :
    putBits qs c (putBits qs d x) = putBits qs c x := by
  apply Nat.eq_of_testBit_eq
  intro p
  rw [testBit_putBits, testBit_putBits, testBit_putBits]
  split <;> rfl

/-! ## Disjoint qubits -/

theorem bitsAt_putBits_of_disjoint {qs rs : List ℕ} (h : qs.Disjoint rs) (c x : ℕ) :
    bitsAt qs (putBits rs c x) = bitsAt qs x :=
  bitsAt_congr fun _ hq => testBit_putBits_of_notMem (fun hr => h hq hr) c x

theorem putBits_comm {qs rs : List ℕ} (h : qs.Disjoint rs) (c d x : ℕ) :
    putBits qs c (putBits rs d x) = putBits rs d (putBits qs c x) := by
  apply Nat.eq_of_testBit_eq
  intro p
  rw [testBit_putBits, testBit_putBits, testBit_putBits, testBit_putBits]
  by_cases hq : p ∈ qs
  · have hr : p ∉ rs := fun hr => h hq hr
    rw [if_pos hq, if_neg hr, if_pos hq]
  · rw [if_neg hq, if_neg hq]

/-! ## Range -/

theorem putBits_lt {n : ℕ} {qs : List ℕ} (hqs : ∀ q ∈ qs, q < n) {x : ℕ} (hx : x < 2 ^ n)
    (c : ℕ) : putBits qs c x < 2 ^ n := by
  apply Nat.lt_pow_two_of_testBit _
  intro p hp
  have hmem : p ∉ qs := fun h => absurd (hqs p h) (by omega)
  rw [testBit_putBits_of_notMem hmem]
  exact Nat.testBit_lt_two_pow (hx.trans_le (Nat.pow_le_pow_right two_pos hp))

/-- Overwriting bits of a register moves no index into it or out of it. -/
theorem putBits_lt_iff {n : ℕ} {qs : List ℕ} (hqs : ∀ q ∈ qs, q < n) {c x : ℕ} :
    putBits qs c x < 2 ^ n ↔ x < 2 ^ n := by
  refine ⟨fun h => ?_, fun h => putBits_lt hqs h c⟩
  have hback := putBits_lt hqs h (bitsAt qs x)
  rwa [putBits_putBits, putBits_bitsAt] at hback

/-! ## The places of a block -/

theorem mask_eq {q : ℕ} (hq : q < 64) : Qubit.mask q = 2 ^ q := by
  rw [Qubit.mask_of_lt hq, Nat.one_shiftLeft]

theorem dimension_eq {n : ℕ} (hn : n < 64) : Qubit.dimension n = 2 ^ n := Qubit.dimension_of_lt hn

/-- The offset of a position in a block has the bits of the position and no others. -/
theorem testBit_spread {qs : List ℕ} (hqs : qs.Nodup) (hlt : ∀ q ∈ qs, q < 64)
    (hlen : qs.length ≤ 64) (c p : ℕ) :
    (Gate.spread qs c).testBit p = (decide (p ∈ qs) && bitFor qs c p) := by
  induction qs with
  | nil => simp [Gate.spread]
  | cons q qs ih =>
    obtain ⟨hq, hqs⟩ := List.nodup_cons.1 hqs
    have hrest := ih hqs (fun p hp => hlt p (List.mem_cons_of_mem q hp))
      (by rw [List.length_cons] at hlen; omega)
    have hlen' : qs.length < 64 := by rw [List.length_cons] at hlen; omega
    rw [Gate.spread, Nat.testBit_or, hrest, bitFor, Qubit.isSet_of_lt _ hlen',
      mask_eq (hlt q List.mem_cons_self)]
    by_cases hp : p = q
    · subst hp
      by_cases hc : c.testBit qs.length = true
      · simp [hc, hq]
      · simp [hc, hq]
    · by_cases hc : c.testBit qs.length = true
      · simp [hc, hp, Nat.testBit_two_pow_of_ne (Ne.symm hp)]
      · simp [hc, hp]

/-- The bits that a gate occupies are those of its qubits. -/
theorem testBit_occupied {qs : List ℕ} (hlt : ∀ q ∈ qs, q < 64) (p : ℕ) :
    (Gate.occupied qs).testBit p = decide (p ∈ qs) := by
  have hfold : ∀ acc : ℕ, (qs.foldl (fun acc q => acc ||| Qubit.mask q) acc).testBit p =
      (acc.testBit p || decide (p ∈ qs)) := by
    induction qs with
    | nil => simp
    | cons q qs ih =>
      intro acc
      rw [List.foldl_cons, ih fun p hp => hlt p (List.mem_cons_of_mem q hp), Nat.testBit_or,
        mask_eq (hlt q List.mem_cons_self), Nat.testBit_two_pow]
      by_cases hp : p = q
      · simp [hp]
      · simp [hp, Ne.symm hp]
  rw [Gate.occupied, hfold]
  simp

/-- A base of the blocks of a gate has no bit at its qubits. -/
theorem and_occupied_eq_zero_iff {qs : List ℕ} (hlt : ∀ q ∈ qs, q < 64) (x : ℕ) :
    x &&& Gate.occupied qs = 0 ↔ putBits qs 0 x = x := by
  -- zero has no bit to put anywhere
  have hbits : ∀ c p, bitFor c 0 p = false := by
    intro c p
    induction c with
    | nil => rfl
    | cons q qs ih => rw [bitFor, ih, Nat.zero_testBit, ite_self]
  constructor
  · intro h
    apply Nat.eq_of_testBit_eq
    intro p
    have hp := congrArg (Nat.testBit · p) h
    simp only [Nat.testBit_and, testBit_occupied hlt, Nat.zero_testBit] at hp
    rw [testBit_putBits, hbits]
    by_cases hmem : p ∈ qs
    · rw [if_pos hmem]
      simpa [hmem] using hp.symm
    · rw [if_neg hmem]
  · intro h
    apply Nat.eq_of_testBit_eq
    intro p
    rw [Nat.testBit_and, testBit_occupied hlt, Nat.zero_testBit, ← h, testBit_putBits, hbits]
    by_cases hmem : p ∈ qs
    · simp [hmem]
    · simp [hmem]

/-- The place of a position in the block at a base is the base with the position put at the
qubits. -/
theorem or_spread {qs : List ℕ} (hqs : qs.Nodup) (hlt : ∀ q ∈ qs, q < 64)
    (hlen : qs.length ≤ 64) {x : ℕ} (hx : putBits qs 0 x = x) (c : ℕ) :
    x ||| Gate.spread qs c = putBits qs c x := by
  apply Nat.eq_of_testBit_eq
  intro p
  have hbase := (and_occupied_eq_zero_iff hlt x).2 hx
  have hp := congrArg (Nat.testBit · p) hbase
  simp only [Nat.testBit_and, testBit_occupied hlt, Nat.zero_testBit] at hp
  rw [Nat.testBit_or, testBit_spread hqs hlt hlen, testBit_putBits]
  by_cases hmem : p ∈ qs
  · rw [if_pos hmem]
    have hzero : x.testBit p = false := by simpa [hmem] using hp
    simp [hmem, hzero]
  · simp [hmem]

end QuantumWorkbench.Register
