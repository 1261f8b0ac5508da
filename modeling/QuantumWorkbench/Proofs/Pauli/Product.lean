import Mathlib
import QuantumWorkbench.Pauli.Basic
import QuantumWorkbench.Proofs.Gate.Construction
import QuantumWorkbench.Proofs.SortedMap

/-!
# Products of Pauli matrices

A product is made of its factors by entering them into a map by their qubits. Making it succeeds
exactly where no qubit is named twice, and the factors of the product are then the given ones, with
their qubits in strictly increasing order.
-/

namespace QuantumWorkbench.PauliTerm

variable {α : Type}

/-- The factors that a map has entered, by increasing qubit. -/
def factorsOf (m : SortedMap ℕ Pauli) : List PauliFactor :=
  m.entries.map fun (qubit, pauli) => (pauli, qubit)

theorem map_snd_factorsOf (m : SortedMap ℕ Pauli) : (factorsOf m).map Prod.snd = m.keys := by
  rw [factorsOf, List.map_map]
  rfl

theorem sorted_factorsOf (m : SortedMap ℕ Pauli) :
    ((factorsOf m).map Prod.snd).Pairwise (· < ·) := by
  rw [map_snd_factorsOf]
  exact List.pairwise_map.2 m.sorted

/-- A qubit is free where no factor of it was entered. -/
theorem notMem_factorsOf_iff {m : SortedMap ℕ Pauli} {qubit : ℕ} :
    qubit ∉ (factorsOf m).map Prod.snd ↔ m.get? qubit = none := by
  rw [map_snd_factorsOf]
  constructor
  · intro hnew
    by_contra hne
    obtain ⟨p, hp⟩ := Option.ne_none_iff_exists'.1 hne
    exact hnew (List.mem_map_of_mem (f := Prod.fst) (SortedMap.mem_entries_of_get? hp))
  · intro hnone hmem
    obtain ⟨e, he, rfl⟩ := List.mem_map.1 hmem
    rw [SortedMap.get?_of_mem_entries (b := e.2) he] at hnone
    cases hnone

/-- Entering a factor is refused where its qubit is taken. -/
theorem enter_eq_ok_iff {m m' : SortedMap ℕ Pauli} {f : PauliFactor} :
    (enter m f : Except (TaskError α) _) = .ok m' ↔
      f.2 ∉ (factorsOf m).map Prod.snd ∧ m.insert f.2 f.1 = m' := by
  rw [notMem_factorsOf_iff, enter, SortedMap.contains]
  cases m.get? f.2 <;> simp

/-- **The step**: a factor that is entered is added to the others. -/
theorem perm_of_enter {m m' : SortedMap ℕ Pauli} {f : PauliFactor}
    (h : (enter m f : Except (TaskError α) _) = .ok m') :
    (factorsOf m').Perm (f :: factorsOf m) := by
  obtain ⟨hnew, rfl⟩ := enter_eq_ok_iff.1 h
  obtain ⟨before, after, hentries, hinsert, -⟩ := m.exists_entries_split f.2
  rw [notMem_factorsOf_iff.1 hnew, Option.toList_none, List.map_nil, List.append_nil] at hentries
  rw [factorsOf, factorsOf, hinsert, hentries, List.map_append, List.map_append, List.map_cons]
  exact List.perm_middle

/-- **The run**: factors that are all entered are added to the others. -/
theorem perm_of_foldlM_enter {fs : List PauliFactor} {m m' : SortedMap ℕ Pauli}
    (h : (fs.foldlM enter m : Except (TaskError α) _) = .ok m') :
    (factorsOf m').Perm (fs ++ factorsOf m) := by
  induction fs generalizing m with
  | nil =>
    obtain rfl := Except.ok.inj h
    exact .refl _
  | cons f fs ih =>
    rw [List.foldlM_cons] at h
    obtain ⟨entered, hf, hfs⟩ := bind_eq_ok.1 h
    have hmoved := ((perm_of_enter hf).append_left fs).trans List.perm_middle
    exact (ih hfs).trans hmoved

@[simp] theorem factorsOf_empty : factorsOf SortedMap.empty = [] := rfl

theorem perm_of_foldlM_empty {fs : List PauliFactor} {m : SortedMap ℕ Pauli}
    (h : (fs.foldlM enter SortedMap.empty : Except (TaskError α) _) = .ok m) :
    (factorsOf m).Perm fs := by
  have hperm := perm_of_foldlM_enter h
  rwa [factorsOf_empty, List.append_nil] at hperm

/-- Factors of different qubits, none of them taken, are all entered. -/
theorem exists_foldlM_enter {fs : List PauliFactor} {m : SortedMap ℕ Pauli}
    (h : ((fs ++ factorsOf m).map Prod.snd).Nodup) :
    ∃ m', (fs.foldlM enter m : Except (TaskError α) _) = .ok m' := by
  -- a factor moves from those to be entered to those in the map, and no qubit is added
  induction fs generalizing m with
  | nil => exact ⟨m, rfl⟩
  | cons f fs ih =>
    rw [List.cons_append, List.map_cons, List.nodup_cons, List.map_append, List.mem_append] at h
    obtain ⟨hnew, hnodup⟩ := h
    have hf : (enter m f : Except (TaskError α) _) = .ok (m.insert f.2 f.1) :=
      enter_eq_ok_iff.2 ⟨fun hmem => hnew (.inr hmem), rfl⟩
    have hperm := ((perm_of_enter hf).append_left fs).trans List.perm_middle
    have hrest : ((fs ++ factorsOf (m.insert f.2 f.1)).map Prod.snd).Nodup := by
      rw [(hperm.map Prod.snd).nodup_iff, List.map_cons, List.nodup_cons, List.map_append,
        List.mem_append]
      exact ⟨hnew, hnodup⟩
    obtain ⟨m', hm'⟩ := ih hrest
    exact ⟨m', by rw [List.foldlM_cons, hf]; exact hm'⟩

/-- Lists of factors that are sorted by strictly increasing qubit are equal where they have the same
factors. -/
theorem eq_of_perm_of_sorted {fs gs : List PauliFactor} (h : fs.Perm gs)
    (hfs : (fs.map Prod.snd).Pairwise (· < ·)) (hgs : (gs.map Prod.snd).Pairwise (· < ·)) :
    fs = gs :=
  List.Perm.eq_of_pairwise (fun _ _ _ _ hlt hlt' => absurd hlt' (lt_asymm hlt))
    (List.pairwise_map.1 hfs) (List.pairwise_map.1 hgs) h

/-- **What making a product comes to**: its factors are the given ones, sorted by strictly
increasing qubit. -/
theorem make_eq_ok_iff {coefficient : α} {fs : List PauliFactor} {t : PauliTerm α} :
    make coefficient fs = .ok t ↔ t.coefficient = coefficient ∧ t.factors.Perm fs ∧
      (t.factors.map Prod.snd).Pairwise (· < ·) := by
  constructor
  · intro h
    obtain ⟨m, hm, ht⟩ := bind_eq_ok.1 h
    obtain rfl := Except.ok.inj ht
    exact ⟨rfl, perm_of_foldlM_empty hm, sorted_factorsOf m⟩
  · rintro ⟨rfl, hperm, hsorted⟩
    have hnodup : (fs.map Prod.snd).Nodup :=
      (hperm.map Prod.snd).nodup_iff.1 (hsorted.imp fun h => h.ne)
    obtain ⟨m, hm⟩ := exists_foldlM_enter (α := α) (m := SortedMap.empty)
      (by rwa [factorsOf_empty, List.append_nil])
    -- the order of a map is the only sorted one
    have hfactors := eq_of_perm_of_sorted ((perm_of_foldlM_empty hm).trans hperm.symm)
      (sorted_factorsOf m) hsorted
    exact bind_eq_ok.2 ⟨m, hm, congrArg Except.ok (congrArg (PauliTerm.mk t.coefficient) hfactors)⟩

end QuantumWorkbench.PauliTerm
