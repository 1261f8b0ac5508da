import Mathlib
import QuantumWorkbench.Pauli.Evolution
import QuantumWorkbench.Proofs.Circuit.Placement
import QuantumWorkbench.Proofs.Gate.Diagonal

/-!
# Steps of evolution are products of exponentials

A ladder of controlled negations brings the parity of its qubits to the last one, so a turn there is
the exponential of a product of Pauli matrices about the third axis. The changes of basis around it
turn this into the exponential of any product, qubit by qubit.
-/

namespace QuantumWorkbench

open Gate Placement Register
open Complex (I)

namespace Pauli

/-! ## Axes -/

/-- The axis of a Pauli matrix. -/
def axis : Pauli → Axis
  | x => .x
  | y => .y
  | z => .z

theorem effect_rotation (p : Pauli) (q : ℕ) (angle : ℝ) :
    effect [turn p.rotationKind q angle] = turnAt p.axis q angle := by
  cases p <;> exact effect_turn rfl rfl q angle

/-- The matrix that turns the axis of a Pauli matrix to the third. -/
noncomputable def toThird (angle : ℝ) : Pauli → Matrix (Fin 2) (Fin 2) ℂ
  | x => hadamard
  | y => Axis.x.turn angle
  | z => 1

theorem effect_toThirdAxis (angle : ℝ) (f : PauliFactor) :
    effect (toThirdAxis angle f) = applyAt [f.2] (toThird angle f.1) := by
  obtain ⟨p, q⟩ := f
  cases p with
  | x => exact (effect_of .h [q]).trans (operator_h_eq q)
  | y => exact effect_turn rfl rfl q angle
  | z => exact (applyAt_one [q]).symm

theorem toThird_neg_mul (angle : ℝ) (p : Pauli) : toThird (-angle) p * toThird angle p = 1 := by
  cases p with
  | x => exact hadamard_mul_self
  | y => rw [toThird, toThird, Axis.turn_mul, neg_add_cancel, Axis.turn_zero]
  | z => exact one_mul 1

/-- **After a quarter turn the third axis stands for the axis of the factor.** -/
theorem toThird_pauli_z (p : Pauli) :
    toThird (-(Real.pi / 2)) p * Axis.z.pauli * toThird (Real.pi / 2) p = p.axis.pauli := by
  cases p with
  | x => exact hadamard_pauli_z
  | y =>
    -- the third matrix turns the quarter turn back around, and two of them make a half turn
    have hswap : Axis.x.turn (-(Real.pi / 2)) * Axis.z.pauli =
        Axis.z.pauli * Axis.x.turn (Real.pi / 2) := by
      rw [Axis.turn_eq, Axis.turn_eq, neg_div, Real.cos_neg, Real.sin_neg]
      ext i j
      fin_cases i <;> fin_cases j <;> simp [Axis.pauli, Matrix.mul_apply]
    have hhalf : Axis.x.turn (Real.pi / 2 + Real.pi / 2) = (-I) • Axis.x.pauli := by
      rw [Axis.turn_eq, add_halves, Real.cos_pi_div_two, Real.sin_pi_div_two]
      simp
    rw [toThird, toThird, hswap, Matrix.mul_assoc, Axis.turn_mul, hhalf]
    ext i j
    fin_cases i <;> fin_cases j <;> simp [axis, Axis.pauli, Matrix.mul_apply]
  | z =>
    rw [toThird, toThird, one_mul, mul_one]
    rfl

/-! ## Parity -/

/-- The parity of the bits at the qubits of some factors. -/
def parity : List PauliFactor → ℕ → Bool
  | [], _ => false
  | f :: fs, index => index.testBit f.2 ^^ parity fs index

theorem parity_congr {fs : List PauliFactor} {x y : ℕ}
    (h : ∀ f ∈ fs, x.testBit f.2 = y.testBit f.2) : parity fs x = parity fs y := by
  induction fs with
  | nil => rfl
  | cons f fs ih =>
    obtain ⟨hf, hfs⟩ := List.forall_mem_cons.1 h
    rw [parity, parity, hf, ih hfs]

/-- **The ladder brings the parity to the last qubit.** -/
theorem effect_parityLadder (F : Bool → ℂ) {f : PauliFactor} {fs : List PauliFactor}
    (hnodup : ((f :: fs).map Prod.snd).Nodup) :
    effect (parityLadder (f :: fs)).reverse ∘ₗ
      phases (fun x => F (x.testBit ((f :: fs).getLast (List.cons_ne_nil f fs)).2)) ∘ₗ
      effect (parityLadder (f :: fs)) = phases fun x => F (parity (f :: fs) x) := by
  induction fs generalizing f with
  | nil => simp [parityLadder, parity]
  | cons g fs ih =>
    obtain ⟨hf, hrest⟩ := List.nodup_cons.1 hnodup
    obtain ⟨hg, -⟩ := List.nodup_cons.1 hrest
    have hne : f.2 ≠ g.2 := fun h => hf (h ▸ List.mem_cons_self)
    -- the first negation adds its control to the parity of the others
    have hparity : ∀ x, parity (g :: fs) (flipIf (·.testBit f.2) g.2 x) =
        parity (f :: g :: fs) x := by
      intro x
      have hothers : parity fs (flipIf (·.testBit f.2) g.2 x) = parity fs x :=
        parity_congr fun a ha => by
          have hother : a.2 ≠ g.2 := fun h => hg (h ▸ List.mem_map_of_mem ha)
          rw [testBit_flipIf, if_neg hother]
      rw [parity, hothers, testBit_flipIf, if_pos rfl, parity, parity,
        Bool.xor_comm (x.testBit g.2), Bool.xor_assoc]
    calc effect (parityLadder (f :: g :: fs)).reverse ∘ₗ
          phases (fun x => F (x.testBit ((f :: g :: fs).getLast (List.cons_ne_nil _ _)).2)) ∘ₗ
          effect (parityLadder (f :: g :: fs))
        = (plain .cnot [f.2, g.2]).operator ∘ₗ (effect (parityLadder (g :: fs)).reverse ∘ₗ
            phases (fun x => F (x.testBit ((g :: fs).getLast (List.cons_ne_nil g fs)).2)) ∘ₗ
            effect (parityLadder (g :: fs))) ∘ₗ (plain .cnot [f.2, g.2]).operator := by
          rw [parityLadder, List.reverse_cons, effect_append, effect_of, effect_cons, made_of,
            List.getLast_cons_cons]
          simp only [LinearMap.comp_assoc]
      _ = phases fun x => F (parity (f :: g :: fs) x) := by
          rw [ih hrest, operator_cnot_phases_cnot hne]
          simp only [hparity]

theorem layer_pauli_z (fs : List PauliFactor) :
    layer Prod.snd (fun _ : PauliFactor => Axis.z.pauli) fs =
      phases fun x => bitPhase (-1) (parity fs x) := by
  induction fs with
  | nil => exact phases_one.symm
  | cons f fs ih =>
    rw [layer, ih, applyAt_pauli_z, phases_comp]
    congr 1
    funext x
    rw [parity]
    cases x.testBit f.2 <;> cases parity fs x <;> simp

/-! ## Products of factors -/

/-- The product of the Pauli matrices of some factors, each on its qubit. -/
noncomputable def productAt (fs : List PauliFactor) : Wave →ₗ[ℂ] Wave :=
  layer Prod.snd (fun f => f.1.axis.pauli) fs

/-- **The gates of several factors** are the exponential of their product. -/
theorem effect_stringGates {fs : List PauliFactor} (hne : fs ≠ [])
    (hnodup : (fs.map Prod.snd).Nodup) (angle : ℝ) :
    effect (stringGates fs angle) = exponential (productAt fs) (angle / 2) := by
  obtain ⟨f, rest, rfl⟩ := List.exists_cons_of_ne_nil hne
  have hforth : effect ((f :: rest).flatMap (toThirdAxis (Real.pi / 2))) =
      layer Prod.snd (fun f => toThird (Real.pi / 2) f.1) (f :: rest) :=
    effect_flatMap_eq_layer (effect_toThirdAxis _) _
  have hback : effect ((f :: rest).reverse.flatMap (toThirdAxis (-(Real.pi / 2)))) =
      layer Prod.snd (fun f => toThird (-(Real.pi / 2)) f.1) (f :: rest) := by
    rw [← layer_reverse _ hnodup]
    exact effect_flatMap_eq_layer (effect_toThirdAxis _) _
  have hlast : (f :: rest).getLast? = some ((f :: rest).getLast hne) :=
    List.getLast?_eq_some_getLast hne
  have hquarter : (Scalar.pi / Scalar.two : ℝ) = Real.pi / 2 := by
    simp [Scalar.two]
  -- between the changes of basis stands the exponential about the third axis
  have hmiddle : effect (parityLadder (f :: rest)).reverse ∘ₗ
      turnAt .z ((f :: rest).getLast hne).2 angle ∘ₗ effect (parityLadder (f :: rest)) =
      exponential (layer Prod.snd (fun _ : PauliFactor => Axis.z.pauli) (f :: rest))
        (angle / 2) := by
    rw [turnAt_z, effect_parityLadder (spin angle) hnodup, phases_spin, layer_pauli_z]
  have hcancel : layer Prod.snd (fun f : PauliFactor => toThird (-(Real.pi / 2)) f.1) (f :: rest) ∘ₗ
      layer Prod.snd (fun f => toThird (Real.pi / 2) f.1) (f :: rest) = LinearMap.id := by
    rw [layer_comp _ _ hnodup]
    simp only [toThird_neg_mul, layer_one]
  calc effect (stringGates (f :: rest) angle)
      = layer Prod.snd (fun f => toThird (-(Real.pi / 2)) f.1) (f :: rest) ∘ₗ
          (effect (parityLadder (f :: rest)).reverse ∘ₗ
            turnAt .z ((f :: rest).getLast hne).2 angle ∘ₗ effect (parityLadder (f :: rest))) ∘ₗ
          layer Prod.snd (fun f => toThird (Real.pi / 2) f.1) (f :: rest) := by
        simp only [stringGates, hquarter, hlast, Option.toList_some, List.map_singleton,
          effect_append, hforth, hback, effect_turn (k := .rz) rfl rfl, LinearMap.comp_assoc]
    _ = exponential (productAt (f :: rest)) (angle / 2) := by
        rw [hmiddle, exponential_conj hcancel, layer_comp _ _ hnodup, layer_comp _ _ hnodup,
          productAt]
        simp only [← Matrix.mul_assoc, toThird_pauli_z]

/-! ## Fitting -/

section

variable {α : Type} [Scalar α] [FullFidelity α] {width : ℕ}

theorem fitsIn_toThirdAxis {f : PauliFactor} (hf : f.2 < width) (angle : α) :
    ∀ p ∈ toThirdAxis angle f, p.FitsIn width := by
  intro p hp
  obtain ⟨a, q⟩ := f
  cases a with
  | x =>
    rw [List.mem_singleton.1 hp]
    exact fitsIn_one rfl hf
  | y =>
    rw [List.mem_singleton.1 hp]
    exact fitsIn_turn rfl hf angle
  | z => exact absurd hp List.not_mem_nil

theorem fitsIn_parityLadder {fs : List PauliFactor} (hfs : ∀ f ∈ fs, f.2 < width)
    (hnodup : (fs.map Prod.snd).Nodup) :
    ∀ p ∈ (parityLadder fs : List (Placement α)), p.FitsIn width := by
  induction fs with
  | nil => exact fun p hp => absurd hp List.not_mem_nil
  | cons f fs ih =>
    cases fs with
    | nil => exact fun p hp => absurd hp List.not_mem_nil
    | cons g fs =>
      obtain ⟨hf, hrest⟩ := List.forall_mem_cons.1 hfs
      obtain ⟨hmem, hnodup⟩ := List.nodup_cons.1 hnodup
      have hne : f.2 ≠ g.2 := fun h => hmem (h ▸ List.mem_cons_self)
      exact List.forall_mem_cons.2
        ⟨fitsIn_two rfl hne hf (hrest g List.mem_cons_self), ih hrest hnodup⟩

end

end Pauli

/-! ## Terms -/

namespace PauliTerm

/-- The qubits of a term are pairwise distinct and lie in a register. -/
structure InRegister {α : Type} (width : ℕ) (t : PauliTerm α) : Prop where
  nodup : (t.factors.map Prod.snd).Nodup
  inside : ∀ f ∈ t.factors, f.2 < width

/-- The exact evolution under a term over a time step; a constant term does nothing. -/
noncomputable def evolution (dt : ℝ) (t : PauliTerm ℝ) : Wave →ₗ[ℂ] Wave :=
  if t.isConstant then LinearMap.id
  else exponential (Pauli.productAt t.factors) (t.coefficient * dt)

/-- **The gates of a term** evolve under it exactly. -/
theorem effect_termGates {t : PauliTerm ℝ} (hnodup : (t.factors.map Prod.snd).Nodup) (dt : ℝ) :
    effect (Pauli.termGates dt t) = t.evolution dt := by
  have hangle : Scalar.two * t.coefficient * dt / 2 = t.coefficient * dt := by
    rw [Scalar.two, Scalar.num_real]
    push_cast
    ring
  obtain ⟨coefficient, fs⟩ := t
  rcases fs with - | ⟨f, - | ⟨g, fs⟩⟩
  · rfl
  · have hone : Pauli.productAt [f] = applyAt [f.2] f.1.axis.pauli := LinearMap.id_comp _
    rw [Pauli.termGates, Pauli.effect_rotation, turnAt_eq, hangle, evolution,
      if_neg (by simp [isConstant]), hone]
  · rw [Pauli.termGates, Pauli.effect_stringGates (List.cons_ne_nil f _) hnodup, hangle, evolution,
      if_neg (by simp [isConstant])]

theorem fitsIn_termGates {α : Type} [Scalar α] [FullFidelity α] {width : ℕ} {t : PauliTerm α}
    (ht : t.InRegister width) (dt : α) : ∀ p ∈ Pauli.termGates dt t, p.FitsIn width := by
  obtain ⟨coefficient, fs⟩ := t
  rcases fs with - | ⟨f, - | ⟨g, fs⟩⟩
  · exact fun p hp => absurd hp List.not_mem_nil
  · intro p hp
    rw [List.mem_singleton.1 hp]
    obtain ⟨a, q⟩ := f
    cases a <;> exact fitsIn_turn rfl (ht.inside _ List.mem_cons_self) _
  · intro p hp
    simp only [Pauli.termGates, Pauli.stringGates, List.append_assoc, List.mem_append,
      List.mem_reverse] at hp
    -- basis changes, the parity ladder, the turn, and the first two undone
    rcases hp with hp | hp | hp | hp | hp
    · obtain ⟨a, ha, hp⟩ := List.mem_flatMap.1 hp
      exact Pauli.fitsIn_toThirdAxis (ht.inside a ha) _ p hp
    · exact Pauli.fitsIn_parityLadder ht.inside ht.nodup p hp
    · obtain ⟨a, ha, rfl⟩ := List.mem_map.1 hp
      exact fitsIn_turn rfl (ht.inside a (List.mem_of_getLast? (Option.mem_toList.1 ha))) _
    · exact Pauli.fitsIn_parityLadder ht.inside ht.nodup p hp
    · obtain ⟨a, ha, hp⟩ := List.mem_flatMap.1 hp
      exact Pauli.fitsIn_toThirdAxis (ht.inside a (List.mem_reverse.1 ha)) _ p hp

end PauliTerm

/-! ## Steps -/

namespace Hamiltonian

/-- A step fits a register that holds the qubits of every term. -/
theorem fitsIn_stepGates {α : Type} [Scalar α] [FullFidelity α] {width : ℕ} {h : Hamiltonian α}
    (hterms : ∀ t ∈ h.terms, t.InRegister width) (dt : α) :
    ∀ p ∈ h.stepGates dt, p.FitsIn width := by
  intro p hp
  obtain ⟨t, ht, hp⟩ := List.mem_flatMap.1 hp
  exact PauliTerm.fitsIn_termGates (hterms t ht) dt p hp

/-- The exact evolutions under some terms over a time step, the first one first. -/
noncomputable def evolutions (dt : ℝ) : List (PauliTerm ℝ) → Wave →ₗ[ℂ] Wave
  | [] => LinearMap.id
  | t :: ts => evolutions dt ts ∘ₗ t.evolution dt

theorem effect_stepGates {h : Hamiltonian ℝ}
    (hnodup : ∀ t ∈ h.terms, (t.factors.map Prod.snd).Nodup) (dt : ℝ) :
    effect (h.stepGates dt) = evolutions dt h.terms := by
  obtain ⟨ts⟩ := h
  rw [stepGates]
  induction ts with
  | nil => rfl
  | cons t ts ih =>
    obtain ⟨ht, hts⟩ := List.forall_mem_cons.1 hnodup
    rw [effect_flatMap_cons, ih hts, PauliTerm.effect_termGates ht, evolutions]

/-- **A step of evolution is the ordered product of the exact exponentials of its terms.** On a
circuit whose register holds the qubits of every term, the step is placed as a whole, and its gates
do what the exponentials do, also to the vectors of the simulation. -/
theorem step_evolves {h : Hamiltonian ℝ} {c : Circuit ℝ}
    (hterms : ∀ t ∈ h.terms, t.InRegister c.width) (dt : ℝ) : ∃ gates : List (Gate ℝ),
      c.append (.ok (h.stepGates dt)) = (c.appendGates gates, none) ∧
      operatorAll gates = evolutions dt h.terms ∧
      (c.width < 64 → ∀ amplitudes : Array (Amplitude ℝ), amplitudes.size = 2 ^ c.width →
        (actAll gates amplitudes).size = 2 ^ c.width ∧
        wave (actAll gates amplitudes) = evolutions dt h.terms (wave amplitudes)) := by
  have hfits := fitsIn_stepGates hterms dt
  have heffect := effect_stepGates (fun t ht => (hterms t ht).nodup) dt
  refine ⟨_, Circuit.append_of_fitsIn hfits, heffect, fun hword amplitudes hsize => ?_⟩
  obtain ⟨hsizeAll, hwave⟩ := wave_actAll hword (Circuit.builtIn_map_made hfits) hsize
  exact ⟨hsizeAll, hwave.trans (LinearMap.congr_fun heffect _)⟩

/-- A product of all three matrices with its factors out of order, a constant and a field. -/
def mixed : Hamiltonian ℝ :=
  ⟨[⟨3, [(.x, 2), (.y, 0), (.z, 1)]⟩, ⟨5, []⟩, ⟨-2, [(.y, 1)]⟩]⟩

theorem step_evolves_mixed : (∀ t ∈ mixed.terms, t.InRegister 3) ∧ ∃ gates : List (Gate ℝ),
    (Circuit.blank 3 0).append (.ok (mixed.stepGates (1 / 2))) =
      ((Circuit.blank 3 0).appendGates gates, none) ∧
    operatorAll gates = exponential (applyAt [1] Axis.y.pauli) (-1) ∘ₗ
      exponential (Pauli.productAt [(.x, 2), (.y, 0), (.z, 1)]) (3 / 2) := by
  have hterms : ∀ t ∈ mixed.terms, t.InRegister 3 := by
    intro t ht
    simp only [mixed, List.mem_cons, List.not_mem_nil, or_false] at ht
    rcases ht with rfl | rfl | rfl <;> exact ⟨by decide, by decide⟩
  obtain ⟨gates, hplaced, hoperator, -⟩ := step_evolves (c := Circuit.blank 3 0) hterms (1 / 2)
  have hfield : Pauli.productAt [(.y, 1)] = applyAt [1] Axis.y.pauli := LinearMap.id_comp _
  refine ⟨hterms, gates, hplaced, hoperator.trans ?_⟩
  simp only [mixed, evolutions, PauliTerm.evolution, PauliTerm.isConstant, List.isEmpty_cons,
    List.isEmpty_nil, if_true, if_neg Bool.false_ne_true, LinearMap.id_comp, hfield]
  norm_num

end Hamiltonian

end QuantumWorkbench
