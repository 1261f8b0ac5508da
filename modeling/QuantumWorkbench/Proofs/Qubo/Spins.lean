import Mathlib
import QuantumWorkbench.Proofs.Qubo.Value
import QuantumWorkbench.Qubo.Ising

/-!
# Spin models of objectives

The energy of a spin model is linear in what is added to it. A term of an objective adds a coupling,
two fields and a constant; with `1 - 2 x` for the spin of a bit `x` these come to the value of the
term, so term by term the model takes over the values of the objective.
-/

namespace QuantumWorkbench

namespace SpinModel

/-! ## Numbers of spins -/

@[simp] theorem spins_blank (n : ℕ) : (blank n : SpinModel ℝ).spins = n := Array.size_replicate

@[simp] theorem spins_addCoupling (m : SpinModel ℝ) (pair : ℕ × ℕ) (x : ℝ) :
    (m.addCoupling pair x).spins = m.spins := rfl

@[simp] theorem spins_lowerField (m : SpinModel ℝ) (i : ℕ) (x : ℝ) :
    (m.lowerField i x).spins = m.spins := Array.size_modify

@[simp] theorem spins_raiseOffset (m : SpinModel ℝ) (x : ℝ) : (m.raiseOffset x).spins = m.spins :=
  rfl

/-! ## Energies -/

/-- The energy of spins that are given one by one. -/
noncomputable def energyOf (s : ℕ → ℝ) (m : SpinModel ℝ) : ℝ :=
  m.couplings.weighted (fun pair => s pair.1 * s pair.2) +
    ∑ i ∈ Finset.range m.spins, m.fields.getD i 0 * s i + m.offset

theorem energy_eq (m : SpinModel ℝ) (values : List ℤ) :
    m.energy values = m.energyOf fun k => spinValue (values.getD k 0) := by
  have htable : ∀ k, values.toArray.getD k 0 = values.getD k 0 := fun k => by
    simp
  have hfields := Scalar.sum_zipIdx_take
    (f := fun h i => h * (spinValue (values.getD i 0) : ℝ)) (fun i => zero_mul _) m.spins
    m.fields.toList
  rw [spins, ← Array.length_toList, List.take_length] at hfields
  simp only [energy, htable, Scalar.sum_real, hfields]
  simp only [energyOf, SortedMap.weighted, spins, mul_assoc, Array.length_toList,
    Array.getD_eq_getD_getElem?, List.getD_eq_getElem?_getD, Array.getElem?_toList]

section

variable (s : ℕ → ℝ) (m : SpinModel ℝ)

theorem energyOf_blank (spins : ℕ) : (blank spins : SpinModel ℝ).energyOf s = 0 := by
  have hfield : ∀ i, (Array.replicate spins (0 : ℝ)).getD i 0 = 0 := fun i => by
    simp [Array.getD_eq_getD_getElem?, Array.getElem?_replicate]
    split <;> rfl
  simp [energyOf, blank, hfield]

theorem energyOf_addCoupling (pair : ℕ × ℕ) (x : ℝ) :
    (m.addCoupling pair x).energyOf s = m.energyOf s + x * (s pair.1 * s pair.2) := by
  have hcouplings := m.couplings.weighted_update_add (fun pair => s pair.1 * s pair.2) pair x
  simp only [energyOf, addCoupling, spins, hcouplings]
  ring

theorem energyOf_raiseOffset (x : ℝ) : (m.raiseOffset x).energyOf s = m.energyOf s + x :=
  (add_assoc _ _ _).symm

/-- Taking from the field of a spin takes its share, where the spin is one of the model. -/
theorem energyOf_lowerField {i : ℕ} (hi : i < m.spins) (x : ℝ) :
    (m.lowerField i x).energyOf s = m.energyOf s - x * s i := by
  -- only the field of the spin itself is changed
  have hfield : ∀ k, (m.fields.modify i fun h => h - x).getD k 0 * s k =
      m.fields.getD k 0 * s k - if k = i then x * s i else 0 := by
    intro k
    rw [Array.getD_eq_getD_getElem?, Array.getD_eq_getD_getElem?, Array.getElem?_modify]
    by_cases hk : k = i
    · subst hk
      have hget : m.fields[k]? = some m.fields[k] := Array.getElem?_eq_getElem hi
      simp only [hget, if_true, Option.map_some, Option.getD_some]
      ring
    · rw [if_neg (Ne.symm hk), if_neg hk, sub_zero]
  have hshare : ∑ k ∈ Finset.range m.spins, (if k = i then x * s i else 0) = x * s i := by
    rw [Finset.sum_ite_eq', if_pos (Finset.mem_range.2 hi)]
  rw [energyOf, spins_lowerField, energyOf]
  simp only [lowerField, hfield, Finset.sum_sub_distrib, hshare]
  ring

end

/-! ## Spins of bits -/

/-- The spin of a bit within the assignment. -/
theorem spinValue_ofBits {bits : List ℕ} (hbits : Qubo.IsAssignment bits) {k : ℕ}
    (hk : k < bits.length) :
    (spinValue ((ofBits bits).getD k 0) : ℝ) = 1 - 2 * Qubo.bitAt bits k := by
  have hget : (ofBits bits).getD k 0 = if Qubo.bitAt bits k = 0 then 1 else -1 := by
    simp [ofBits, Qubo.bitAt, hk]
  have hlt := hbits.bitAt_lt k
  rw [hget]
  interval_cases Qubo.bitAt bits k <;> norm_num [spinValue]

end SpinModel

namespace Qubo

open SpinModel

/-! ## Conversion -/

theorem spins_addSpinTerm (m : SpinModel ℝ) (term : (ℕ × ℕ) × ℝ) :
    (addSpinTerm m term).spins = m.spins := by
  obtain ⟨⟨i, j⟩, x⟩ := term
  by_cases hij : i = j <;> simp [addSpinTerm, hij]

theorem spins_foldl_addSpinTerm (terms : List ((ℕ × ℕ) × ℝ)) (m : SpinModel ℝ) :
    (terms.foldl addSpinTerm m).spins = m.spins := by
  induction terms generalizing m with
  | nil => rfl
  | cons term terms ih => rw [List.foldl_cons, ih, spins_addSpinTerm]

section

variable {bits : List ℕ} (hbits : IsAssignment bits) {s : ℕ → ℝ}
include hbits

/-- **One term** adds its value to the energy. -/
theorem energyOf_addSpinTerm {m : SpinModel ℝ} (hs : ∀ k < m.spins, s k = 1 - 2 * bitAt bits k)
    {term : (ℕ × ℕ) × ℝ} (hterm : term.1.1 < m.spins ∧ term.1.2 < m.spins) :
    (addSpinTerm m term).energyOf s = m.energyOf s + term.2 * bothSet bits term.1 := by
  obtain ⟨⟨i, j⟩, x⟩ := term
  obtain ⟨hi, hj⟩ : i < m.spins ∧ j < m.spins := hterm
  have hsi := hs i hi
  have hsj := hs j hj
  by_cases hij : i = j
  · -- a field and a constant, for a bit that is its own square
    subst hij
    have hsquare := hbits.bitAt_mul_self i
    rw [addSpinTerm, if_pos rfl, energyOf_raiseOffset, energyOf_lowerField s m hi, hsi,
      Scalar.two_real, bothSet, hsquare]
    ring
  · have hcoupled : i < (m.addCoupling (i, j) (x / Scalar.num 4)).spins := hi
    have hlowered : j < ((m.addCoupling (i, j) (x / Scalar.num 4)).lowerField i
        (x / Scalar.num 4)).spins := by
      simpa using hj
    rw [addSpinTerm, if_neg hij, energyOf_raiseOffset, energyOf_lowerField s _ hlowered,
      energyOf_lowerField s _ hcoupled, energyOf_addCoupling, hsi, hsj, Scalar.num_real, bothSet]
    push_cast
    ring

/-- **All terms** add the sum of their values. -/
theorem energyOf_foldl_addSpinTerm {terms : List ((ℕ × ℕ) × ℝ)} {m : SpinModel ℝ}
    (hs : ∀ k < m.spins, s k = 1 - 2 * bitAt bits k)
    (hterms : ∀ e ∈ terms, e.1.1 < m.spins ∧ e.1.2 < m.spins) :
    (terms.foldl addSpinTerm m).energyOf s =
      m.energyOf s + (terms.map fun e => e.2 * bothSet bits e.1).sum := by
  induction terms generalizing m with
  | nil => simp
  | cons e es ih =>
    obtain ⟨he, hes⟩ := List.forall_mem_cons.1 hterms
    rw [List.foldl_cons, ih (by rwa [spins_addSpinTerm]) (by rwa [spins_addSpinTerm]),
      energyOf_addSpinTerm hbits hs he, List.map_cons, List.sum_cons, add_assoc]

end

/-- **The spin model of an objective has its values as energies.** The conversion is refused where
the fields of so many spins cannot be stored. Otherwise the model has as many spins as the objective
has variables, each term finds the fields that it changes, and the spins of an assignment of all
variables have the energy that the assignment has as its value. -/
theorem energy_toSpins {q : Qubo ℝ} (hq : q.Built) :
    (Storage.holdsScalars q.width = false → q.toSpins? = none) ∧
    (Storage.holdsScalars q.width = true → ∃ m, q.toSpins? = some m ∧ m.spins = q.width ∧
      (∀ before term after, q.terms.entries = before ++ term :: after →
        term.1.1 < (before.foldl addSpinTerm (.blank q.width)).fields.size ∧
        term.1.2 < (before.foldl addSpinTerm (.blank q.width)).fields.size) ∧
      ∀ bits, IsAssignment bits → q.width ≤ bits.length →
        m.energy (ofBits bits) = q.evaluate bits) := by
  refine ⟨fun hstorage => ?_, fun hstorage => ?_⟩
  · rw [toSpins?, SpinModel.blank?, hstorage]
    rfl
  · have hlimit : q.width < Index.limit - 1 := Storage.lt_of_holds (by decide) hstorage
    -- adding terms keeps the number of spins, so every field that is changed is there
    have hsize := fun terms =>
      (spins_foldl_addSpinTerm terms (.blank q.width)).trans (spins_blank q.width)
    have hinside : ∀ e ∈ q.terms.entries, e.1.1 < q.width ∧ e.1.2 < q.width := fun e he =>
      lt_of_width_le hq le_rfl hlimit he
    refine ⟨_, by rw [toSpins?, SpinModel.blank?, if_pos hstorage]; rfl, hsize _, ?_, ?_⟩
    · intro before term after hentries
      have hterm := hinside term (by simp [hentries])
      rwa [← hsize before] at hterm
    · intro bits hbits hwidth
      have hspins : ∀ k < (SpinModel.blank q.width : SpinModel ℝ).spins,
          spinValue ((ofBits bits).getD k 0) = 1 - 2 * (bitAt bits k : ℝ) := fun k hk => by
        rw [spins_blank] at hk
        exact spinValue_ofBits hbits (hk.trans_le hwidth)
      rw [energy_eq, energyOf_foldl_addSpinTerm hbits hspins (by rwa [spins_blank]),
        energyOf_blank, zero_add, evaluate_eq_weighted hbits, SortedMap.weighted]

/-- An objective with a pair beyond its declared width, named with the higher variable first. -/
noncomputable def reaching : Qubo ℝ := ((blank 1).add 0 0 2).add 2 1 1

theorem energy_toSpins_reaching : reaching.Built ∧ Storage.holdsScalars reaching.width = true ∧
    ∃ m, reaching.toSpins? = some m ∧ m.spins = 3 ∧ m.energy (ofBits [1, 1, 1]) = 3 := by
  have hbuilt : reaching.Built := .add (.add (.blank 1) 0 0 2) 2 1 1
  have hstorage : Storage.holdsScalars reaching.width = true := rfl
  obtain ⟨m, hm, hspins, -, henergy⟩ := (energy_toSpins hbuilt).2 hstorage
  have hbits : IsAssignment [1, 1, 1] := by decide
  have hentries : reaching.terms.entries = [((0, 0), 0 + 2), ((1, 2), 0 + 1)] := rfl
  refine ⟨hbuilt, hstorage, m, hm, hspins, ?_⟩
  rw [henergy _ hbits (by decide), evaluate_eq_weighted hbits, SortedMap.weighted, hentries]
  norm_num [bothSet, bitAt]

end Qubo

end QuantumWorkbench
