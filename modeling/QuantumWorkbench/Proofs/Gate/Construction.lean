import Mathlib.Data.List.Basic
import QuantumWorkbench.Circuit.Basic
import QuantumWorkbench.Gate.Adjoint
import QuantumWorkbench.Gate.Expansion
import QuantumWorkbench.Proofs.SortedMap

/-!
# Gates that the constructors make

A gate is only ever made by the constructors, by changing its fidelity, by inversion and by
expansion. Whatever the route, it lists no qubit twice, has the number of qubits that its kind asks
for, and carries a matrix of its own only as a custom gate, of the right side.
-/

namespace QuantumWorkbench

/-- A chain of two steps succeeds where both do. -/
theorem bind_eq_ok {ε β γ : Type} {x : Except ε β} {f : β → Except ε γ} {c : γ} :
    (x >>= f) = .ok c ↔ ∃ b, x = .ok b ∧ f b = .ok c := by
  cases x with
  | error e => simp [bind, Except.bind]
  | ok b => simp [bind, Except.bind]

/-- A chain of two steps fails where one of them does. -/
theorem bind_eq_error {ε β γ : Type} {x : Except ε β} {f : β → Except ε γ} {e : ε} :
    (x >>= f) = .error e ↔ x = .error e ∨ ∃ b, x = .ok b ∧ f b = .error e := by
  cases x with
  | error e' => simp [bind, Except.bind]
  | ok b => simp [bind, Except.bind]

/-- Naming errors differently changes no success. -/
theorem mapError_eq_ok {ε ε' β : Type} {x : Except ε β} {f : ε → ε'} {b : β} :
    x.mapError f = .ok b ↔ x = .ok b := by
  cases x with
  | error e => exact ⟨nofun, nofun⟩
  | ok b' => exact ⟨fun h => congrArg Except.ok (Except.ok.inj h), fun h =>
      congrArg Except.ok (Except.ok.inj h)⟩

/-- A final step that cannot fail. -/
theorem map_eq_ok {ε β γ : Type} {x : Except ε β} {f : β → γ} {c : γ} :
    x.map f = .ok c ↔ ∃ b, x = .ok b ∧ f b = c := by
  cases x <;> simp [Except.map]

namespace Gate

variable {α : Type} [Scalar α]

/-! ## Checks -/

omit [Scalar α] in
theorem checkQubits_eq_ok {kind : GateKind} {qubits : List Nat}
    (h : checkQubits (α := α) kind qubits = .ok ()) :
    qubits.Nodup ∧ qubits ≠ [] ∧ ∀ n, kind.arity = some n → qubits.length = n := by
  unfold checkQubits at h
  dsimp only at h
  cases harity : kind.arity with
  | none =>
    cases qubits with
    | nil => simp [harity] at h
    | cons q qs =>
      cases hrepeated : Qubit.firstRepeated (q :: qs) with
      | some q' => simp [harity, hrepeated] at h
      | none => exact ⟨Qubit.firstRepeated_eq_none_iff.1 hrepeated, by simp, by simp⟩
  | some n =>
    by_cases hlen : qubits.length = n
    · cases hrepeated : Qubit.firstRepeated qubits with
      | some q => simp [harity, hlen, hrepeated] at h
      | none =>
        refine ⟨Qubit.firstRepeated_eq_none_iff.1 hrepeated, fun hnil => ?_, by simpa using hlen⟩
        -- no kind asks for zero qubits
        subst hnil hlen
        cases kind <;> simp [GateKind.arity] at harity
    · simp [harity, hlen] at h

/-- No angle is kept where the fidelity is given. -/
theorem fidelityKey_ne_of_angleKey {k : GateKind} {key : String} (h : k.angleKey = some key) :
    fidelityKey ≠ key := by
  cases k <;> simp [GateKind.angleKey] at h <;> subst h <;> decide

/-- What `make` checks, and the gate it returns. -/
theorem make_eq_ok {kind : GateKind} {qubits : List Nat} {parameters : Parameters α} {g : Gate α} :
    make kind qubits parameters = .ok g ↔
      checkQubits (α := α) kind qubits = .ok () ∧
      checkFidelity ((parameters.get? fidelityKey).getD 1) = .ok () ∧
      checkStorage (α := α) kind qubits.length = .ok () ∧
      g = ⟨kind, qubits, parameters.erase fidelityKey, none,
        (parameters.get? fidelityKey).getD 1⟩ := by
  simp only [make, bind_eq_ok, pure, Except.pure, Except.ok.injEq, eq_comm (a := g)]
  exact ⟨fun ⟨_, h₁, _, h₂, _, h₃, h⟩ => ⟨h₁, h₂, h₃, h⟩,
    fun ⟨h₁, h₂, h₃, h⟩ => ⟨_, h₁, _, h₂, _, h₃, h⟩⟩

theorem withFidelity_eq_ok {g g' : Gate α} {fidelity : α} :
    g.withFidelity fidelity = .ok g' ↔
      checkFidelity fidelity = .ok () ∧ g' = { g with fidelity } := by
  simp only [withFidelity, bind_eq_ok, pure, Except.pure, Except.ok.injEq, eq_comm (a := g')]
  exact ⟨fun ⟨_, h₁, h⟩ => ⟨h₁, h⟩, fun ⟨h₁, h⟩ => ⟨_, h₁, h⟩⟩

/-! ## Gates by construction -/

/-- The gates that the constructors make. -/
inductive Built : Gate α → Prop where
  | make {kind qubits parameters g} (h : Gate.make kind qubits parameters = .ok g) : Built g
  | ofParts {qubits re im g} (h : Gate.ofParts qubits re im = .ok g) : Built g
  | withFidelity {g fidelity g'} (hg : Built g) (h : g.withFidelity fidelity = .ok g') : Built g'
  | withNoise {g} (hg : Built g) (level : α) : Built (g.withNoise level)
  | inverse {g} (hg : Built g) : Built g.inverse
  | expansion {g g'} (hg : Built g) (h : g' ∈ g.expansion) : Built g'

theorem Built.rotation {kind : GateKind} {qubit : Nat} {angle : α} {g : Gate α}
    (h : Gate.rotation kind qubit angle = .ok g) : Built g := by
  unfold Gate.rotation at h
  split at h
  · exact .make h
  · cases h

/-- What every constructed gate satisfies. -/
structure WellFormed (g : Gate α) : Prop where
  nodup : g.qubits.Nodup
  nonempty : g.qubits ≠ []
  arity : ∀ n, g.kind.arity = some n → g.width = n
  /-- Only custom gates carry a matrix of their own. -/
  custom : ∀ m, g.ownMatrix = some m → g.kind = .custom
  shape : ∀ m, g.ownMatrix = some m → m.dim = Qubit.dimension g.width ∧ m.isFull = true
  /-- The fidelity is taken out of the parameters. -/
  fidelityTaken : g.parameters.get? fidelityKey = none

namespace WellFormed

variable {g : Gate α}

omit [Scalar α] in
theorem ownMatrix_eq_none (hg : g.WellFormed) (h : g.kind ≠ .custom) : g.ownMatrix = none := by
  cases hm : g.ownMatrix with
  | none => rfl
  | some m => exact absurd (hg.custom m hm) h

/-- A kind of the catalog acts by its closed form. -/
theorem matrix_eq (hg : g.WellFormed) (h : g.kind ≠ .custom) :
    g.matrix = g.kind.unitary g.parameters g.width := by
  rw [Gate.matrix, hg.ownMatrix_eq_none h]

theorem matrix_eq_of_none (h : g.ownMatrix = none) :
    g.matrix = g.kind.unitary g.parameters g.width := by
  rw [Gate.matrix, h]

end WellFormed

end Gate

namespace GateKind

variable {α : Type} [Scalar α]

theorem arity_adjoint {k k' : GateKind} (h : k.adjoint = some k') : k'.arity = k.arity := by
  cases k <;> simp [adjoint, isSelfInverse, isRotation, angleKey] at h <;> subst h <;> rfl

theorem arity_of_axis {k : GateKind} {a : Axis} (h : k.axis = some a) : k.arity = some 1 := by
  cases k <;> first | rfl | cases h

theorem arity_of_isRotation {k : GateKind} (h : k.isRotation = true) : k.arity = some 1 := by
  cases k <;> first | rfl | cases h

theorem ne_custom_of_axis {k : GateKind} {a : Axis} (h : k.axis = some a) : k ≠ .custom := by
  rintro rfl
  cases h

theorem ne_custom_of_isRotation {k : GateKind} (h : k.isRotation = true) : k ≠ .custom := by
  rintro rfl
  cases h

theorem ne_custom_of_adjoint {k k' : GateKind} (h : k.adjoint = some k') : k ≠ .custom := by
  rintro rfl
  cases h

/-- The closed form of a kind has the side that belongs to its number of qubits. -/
theorem dim_unitary {k : GateKind} {n : Nat} (h : ∀ m, k.arity = some m → n = m)
    (parameters : Parameters α) : (k.unitary parameters n).dim = Qubit.dimension n := by
  cases k <;> first | rfl | (rw [h _ rfl]; rfl)

end GateKind

namespace SquareMatrix

variable {α : Type}

/-- Parts that fit give a full matrix of the side that belongs to the number of qubits. -/
theorem ofParts?_eq_some {re im : List α} {qubits : Nat} {m : SquareMatrix α}
    (h : ofParts? re im qubits = some m) :
    m.dim = Qubit.dimension qubits ∧ m.isFull = true := by
  unfold ofParts? at h
  dsimp only at h
  split at h
  · next hfit =>
    simp only [Bool.and_eq_true, decide_eq_true_eq] at hfit
    obtain ⟨hlen, hside⟩ := hfit
    cases h
    refine ⟨hside, ?_⟩
    have hpos : sideOf re.length ≠ 0 := by
      rw [hside, Qubit.dimension, Nat.one_shiftLeft]
      exact Nat.ne_of_gt (Nat.two_pow_pos _)
    -- the side is zero where the number of parts is no square
    have hsquare : sideOf re.length * sideOf re.length = re.length := by
      unfold sideOf at hpos ⊢
      dsimp only at hpos ⊢
      split at hpos
      · next hroot => rw [if_pos hroot, hroot]
      · exact absurd rfl hpos
    simp [isFull, hsquare, ← hlen]
  · cases h

end SquareMatrix

namespace Gate

variable {α : Type} [Scalar α]

omit [Scalar α] in
theorem WellFormed.rotation_qubits {g : Gate α} (hg : g.WellFormed)
    (hr : g.isRotation = true) : g.qubits = [g.qubits.headD 0] := by
  have hlen : g.qubits.length = 1 := hg.arity 1 (GateKind.arity_of_isRotation hr)
  obtain ⟨q, hq⟩ := List.length_eq_one_iff.1 hlen
  rw [hq]
  rfl

theorem WellFormed.dim_matrix {g : Gate α} (hg : g.WellFormed) :
    g.matrix.dim = Qubit.dimension g.width := by
  cases hm : g.ownMatrix with
  | some m => rw [Gate.matrix, hm]; exact (hg.shape m hm).1
  | none => rw [WellFormed.matrix_eq_of_none hm]; exact GateKind.dim_unitary hg.arity _

/-! ## Expansions -/

/-- A gate with nothing but its kind, of fixed arity, on some of the given qubits. -/
structure PlainOn (qs : List Nat) (g : Gate α) : Prop where
  plain : g = Gate.plain g.kind g.qubits
  arity : g.kind.arity = some g.width
  nodup : g.qubits.Nodup
  subset : g.qubits ⊆ qs

theorem plainOn_one {k : GateKind} (hk : k.arity = some 1) {qs : List Nat} {q : Nat} (h : q ∈ qs) :
    (Gate.plain k [q] : Gate α).PlainOn qs := ⟨rfl, hk, by simp [Gate.plain], by simpa [Gate.plain]⟩

theorem plainOn_two {k : GateKind} (hk : k.arity = some 2) {qs : List Nat} {p q : Nat}
    (hne : p ≠ q) (hp : p ∈ qs) (hq : q ∈ qs) : (Gate.plain k [p, q] : Gate α).PlainOn qs :=
  ⟨rfl, hk, by simpa [Gate.plain], by simp [Gate.plain, hp, hq]⟩

theorem plainOn_toffoliNetwork {a b c : Nat} (h : [a, b, c].Nodup) :
    ∀ g ∈ (toffoliNetwork a b c : List (Gate α)), g.PlainOn [a, b, c] := by
  simp only [List.nodup_cons, List.mem_cons, List.not_mem_nil, or_false, not_or] at h
  obtain ⟨⟨hab, hac⟩, hbc, -⟩ := h
  have ha : a ∈ [a, b, c] := by simp
  have hb : b ∈ [a, b, c] := by simp
  have hc : c ∈ [a, b, c] := by simp
  simp only [toffoliNetwork, List.forall_mem_cons, List.not_mem_nil, false_implies, implies_true,
    and_true]
  exact ⟨plainOn_one rfl hc, plainOn_two rfl hbc hb hc, plainOn_one rfl hc,
    plainOn_two rfl hac ha hc, plainOn_one rfl hc, plainOn_two rfl hbc hb hc, plainOn_one rfl hc,
    plainOn_two rfl hac ha hc, plainOn_one rfl hb, plainOn_one rfl hc, plainOn_one rfl hc,
    plainOn_two rfl hab ha hb, plainOn_one rfl ha, plainOn_one rfl hb, plainOn_two rfl hab ha hb⟩

/-- The ways to write a well-formed gate out. -/
inductive Expands (g : Gate α) : Prop where
  | toffoli {a b c : Nat} (hkind : g.kind = .toffoli) (hqubits : g.qubits = [a, b, c])
      (hlist : g.expansion = toffoliNetwork a b c)
  /-- A controlled sign: a controlled flip between two basis changes of the target. -/
  | cz {a b : Nat} (hkind : g.kind = .cz) (hqubits : g.qubits = [a, b])
      (hlist : g.expansion = [plain .h [b], plain .cnot [a, b], plain .h [b]])
  /-- An exchange: three controlled flips, the middle one the other way round. -/
  | swap {a b : Nat} (hkind : g.kind = .swap) (hqubits : g.qubits = [a, b])
      (hlist : g.expansion = [plain .cnot [a, b], plain .cnot [b, a], plain .cnot [a, b]])
  /-- A controlled exchange: the network between two controlled flips. -/
  | fredkin {a b c : Nat} (hkind : g.kind = .fredkin) (hqubits : g.qubits = [a, b, c])
      (hlist : g.expansion = plain .cnot [c, b] :: toffoliNetwork a b c ++ [plain .cnot [c, b]])
  /-- No expansion is known of any other gate. -/
  | self (hkind : g.kind ≠ .toffoli ∧ g.kind ≠ .cz ∧ g.kind ≠ .swap ∧ g.kind ≠ .fredkin)
      (hlist : g.expansion = [g])

/-- A well-formed gate has as many qubits as its expansion asks for. -/
theorem WellFormed.expands {g : Gate α} (hg : g.WellFormed) : g.Expands := by
  have hlen : ∀ n, g.kind.arity = some n → g.qubits.length = n := hg.arity
  cases hkind : g.kind with
  | toffoli =>
    obtain ⟨a, b, c, hq⟩ := List.length_eq_three.1 (hlen 3 (hkind ▸ rfl))
    exact .toffoli hkind hq (by rw [expansion, hkind, hq])
  | cz =>
    obtain ⟨a, b, hq⟩ := List.length_eq_two.1 (hlen 2 (hkind ▸ rfl))
    exact .cz hkind hq (by rw [expansion, hkind, hq])
  | swap =>
    obtain ⟨a, b, hq⟩ := List.length_eq_two.1 (hlen 2 (hkind ▸ rfl))
    exact .swap hkind hq (by rw [expansion, hkind, hq])
  | fredkin =>
    obtain ⟨a, b, c, hq⟩ := List.length_eq_three.1 (hlen 3 (hkind ▸ rfl))
    exact .fredkin hkind hq (by rw [expansion, hkind, hq])
  | _ => exact .self (by simp [hkind]) (by rw [expansion, hkind])

/-- A gate is its own expansion, or it is written out in plain gates on its qubits. -/
theorem plainOn_expansion {g : Gate α} (hg : g.WellFormed) :
    g.expansion = [g] ∨ ∀ g' ∈ g.expansion, g'.PlainOn g.qubits := by
  have hnodup := hg.nodup
  cases hg.expands with
  | toffoli _ hqubits hlist =>
    rw [hqubits] at hnodup ⊢
    rw [hlist]
    exact Or.inr (plainOn_toffoliNetwork hnodup)
  | @cz a b _ hqubits hlist =>
    rw [hqubits] at hnodup ⊢
    have hne : a ≠ b := by simpa using hnodup
    rw [hlist]
    simp only [List.forall_mem_cons, List.not_mem_nil, false_implies, implies_true, and_true]
    exact Or.inr ⟨plainOn_one rfl (by simp), plainOn_two rfl hne (by simp) (by simp),
      plainOn_one rfl (by simp)⟩
  | @swap a b _ hqubits hlist =>
    rw [hqubits] at hnodup ⊢
    have hne : a ≠ b := by simpa using hnodup
    rw [hlist]
    simp only [List.forall_mem_cons, List.not_mem_nil, false_implies, implies_true, and_true]
    exact Or.inr ⟨plainOn_two rfl hne (by simp) (by simp),
      plainOn_two rfl hne.symm (by simp) (by simp), plainOn_two rfl hne (by simp) (by simp)⟩
  | @fredkin a b c _ hqubits hlist =>
    rw [hqubits] at hnodup ⊢
    have hcb : c ≠ b := by simp at hnodup; omega
    rw [hlist]
    simp only [List.cons_append, List.forall_mem_cons, List.forall_mem_append, List.not_mem_nil,
      false_implies, implies_true, and_true]
    exact Or.inr ⟨plainOn_two rfl hcb (by simp) (by simp), plainOn_toffoliNetwork hnodup,
      plainOn_two rfl hcb (by simp) (by simp)⟩
  | self _ hlist => exact Or.inl hlist

theorem PlainOn.wellFormed {qs : List Nat} {g : Gate α} (hg : g.PlainOn qs) : g.WellFormed := by
  have hplain := hg.plain
  refine ⟨hg.nodup, fun hnil => ?_, fun n hn => ?_, fun m hm => ?_, fun m hm => ?_, ?_⟩
  · have harity := hg.arity
    rw [width, hnil] at harity
    cases hk : g.kind <;> simp [hk, GateKind.arity] at harity
  · exact Option.some.inj (hg.arity.symm.trans hn)
  · rw [hplain] at hm
    cases hm
  · rw [hplain] at hm
    cases hm
  · rw [hplain]
    rfl

/-- **Every constructed gate is well-formed**. -/
theorem Built.wellFormed {g : Gate α} (hg : g.Built) : g.WellFormed := by
  induction hg with
  | make h =>
    obtain ⟨hqubits, -, -, rfl⟩ := make_eq_ok.1 h
    obtain ⟨hnodup, hne, harity⟩ := checkQubits_eq_ok hqubits
    exact ⟨hnodup, hne, harity, by simp, by simp, SortedMap.get?_erase_self _ _⟩
  | ofParts h =>
    obtain ⟨g, hg, h⟩ := bind_eq_ok.1 h
    cases h
    obtain ⟨hqubits, -, -, rfl⟩ := make_eq_ok.1 hg
    obtain ⟨hnodup, hne, harity⟩ := checkQubits_eq_ok hqubits
    exact ⟨hnodup, hne, harity, fun _ _ => rfl, fun m hm => SquareMatrix.ofParts?_eq_some hm,
      SortedMap.get?_erase_self _ _⟩
  | withFidelity _ h ih =>
    obtain ⟨-, rfl⟩ := withFidelity_eq_ok.1 h
    exact ⟨ih.nodup, ih.nonempty, ih.arity, ih.custom, ih.shape, ih.fidelityTaken⟩
  | withNoise _ level ih =>
    exact ⟨ih.nodup, ih.nonempty, ih.arity, ih.custom, ih.shape, ih.fidelityTaken⟩
  | @inverse g _ ih =>
    unfold Gate.inverse
    split
    · next key hkey =>
      -- the angle is stored under a key of its own, never under the fidelity's
      refine ⟨ih.nodup, ih.nonempty, ih.arity, by simp, by simp, ?_⟩
      exact (SortedMap.get?_insert_of_ne _ (fidelityKey_ne_of_angleKey hkey) _).trans
        ih.fidelityTaken
    · split
      · next kind hkind =>
        exact ⟨ih.nodup, ih.nonempty,
          fun n hn => ih.arity n ((GateKind.arity_adjoint hkind).symm.trans hn),
          by simp, by simp, ih.fidelityTaken⟩
      · next hkind =>
        -- any other gate becomes a custom one, whose matrix is as large as the old one
        refine ⟨ih.nodup, ih.nonempty, fun n hn => (by cases hn), fun _ _ => rfl, ?_,
          ih.fidelityTaken⟩
        rintro m ⟨⟩
        exact ⟨ih.dim_matrix, by simp [SquareMatrix.isFull, SquareMatrix.dagger, SquareMatrix.ofFn]⟩
  | expansion _ h ih =>
    rcases plainOn_expansion ih with hself | hplain
    · rw [hself, List.mem_singleton] at h
      exact h ▸ ih
    · exact (hplain _ h).wellFormed

theorem wellFormed_of_built {gates : List (Gate α)} (hgates : ∀ g ∈ gates, g.Built) :
    ∀ g ∈ gates, g.WellFormed := fun g hg => (hgates g hg).wellFormed

/-! ## Circuits of constructed gates -/

/-- A gate was made by the constructors and lies in a register. -/
structure BuiltIn (width : Nat) (g : Gate α) : Prop where
  built : g.Built
  inside : ∀ q ∈ g.qubits, q < width

/-- A gate is written out in gates of its register. -/
theorem BuiltIn.expansion {width : Nat} {g x : Gate α} (hg : g.BuiltIn width)
    (hx : x ∈ g.expansion) : x.BuiltIn width := by
  refine ⟨.expansion hg.built hx, fun q hq => ?_⟩
  rcases plainOn_expansion hg.built.wellFormed with hself | hplain
  · rw [hself, List.mem_singleton] at hx
    exact hg.inside q (hx ▸ hq)
  · exact hg.inside q ((hplain x hx).subset hq)

end Gate

namespace Circuit

variable {α : Type} [Scalar α]

/-- The circuits that constructed gates are added to one by one. -/
def Built (c : Circuit α) : Prop := ∀ g ∈ c.gates, g.BuiltIn c.width

theorem Built.wellFormed {c : Circuit α} (hc : c.Built) : ∀ g ∈ c.gates, g.WellFormed :=
  fun g hg => (hc g hg).built.wellFormed

theorem built_blank (width bits : Nat) : (blank width bits : Circuit α).Built := by
  simp [Built, blank]

omit [Scalar α] in
/-- A gate is checked by its qubits. -/
theorem checkGate_eq_ok {c : Circuit α} {g : Gate α} :
    c.checkGate g = .ok () ↔ ∀ q ∈ g.qubits, q < c.width := by
  unfold checkGate
  cases hfound : g.qubits.find? fun q => c.width ≤ q with
  | none => simpa using hfound
  | some q =>
    have hbeyond : c.width ≤ q := by simpa using List.find?_some hfound
    have hmem := List.mem_of_find?_eq_some hfound
    exact ⟨nofun, fun hinside => absurd (hinside q hmem) (Nat.not_lt.2 hbeyond)⟩

/-- A gate is appended where it lies in the register. -/
theorem addGate_eq_ok {c c' : Circuit α} {g : Gate α} :
    c.addGate g = .ok c' ↔ (∀ q ∈ g.qubits, q < c.width) ∧ c' = c.appendGates [g] := by
  simp only [addGate, bind_eq_ok, pure, Except.pure, Except.ok.injEq, eq_comm (a := c')]
  exact ⟨fun ⟨_, hcheck, h⟩ => ⟨checkGate_eq_ok.1 hcheck, h⟩,
    fun ⟨hinside, h⟩ => ⟨_, checkGate_eq_ok.2 hinside, h⟩⟩

theorem built_addGate {c c' : Circuit α} {g : Gate α} (hc : c.Built) (hg : g.Built)
    (h : c.addGate g = .ok c') : c'.Built := by
  obtain ⟨hinside, rfl⟩ := addGate_eq_ok.1 h
  intro g' hg'
  rcases List.mem_append.1 hg' with hg' | hg'
  · exact hc g' hg'
  · rw [List.mem_singleton.1 hg']
    exact ⟨hg, hinside⟩

end Circuit

end QuantumWorkbench
