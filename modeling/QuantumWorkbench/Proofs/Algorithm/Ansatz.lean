import Mathlib
import QuantumWorkbench.Algorithm.Ansatz
import QuantumWorkbench.Proofs.Circuit.Placement

/-!
# Angles of the layered ansatz

The angles of an ansatz are cut into layers, a layer into its pairs and its closing angles, and every
piece is handed to the gates in turn. The gates turn by the angles of the list, each by one of them and
in order, and every layer has the same gates.
-/

namespace QuantumWorkbench.Ansatz

open Gate Placement

/-! ## Gates and the angles they take -/

section

variable {α : Type} [Scalar α]

/-- The kinds and the qubits of the gates of one layer. -/
def layerShape (n : ℕ) : List (GateKind × List ℕ) :=
  (List.range n).flatMap (fun q => [(.ry, [q]), (.rz, [q])]) ++
    (List.range' 1 (n - 1)).map (fun q => (.cnot, [q - 1, q])) ++
    (List.range n).map fun q => (.ry, [q])

/-- Placements on a register of `n` qubits whose gates have the kinds and qubits of `shape` and turn
by `angles`, each angle by one gate and in order. -/
structure Lays (n : ℕ) (ps : List (Placement α)) (angles : List α)
    (shape : List (GateKind × List ℕ)) : Prop where
  fits : ∀ p ∈ ps, p.FitsIn n
  takes : ps.filterMap (fun p => p.made.angle) = angles
  shaped : ps.map (fun p => (p.kind, p.qubits)) = shape

variable {n : ℕ} {ps ps' : List (Placement α)} {as as' angles : List α}
  {shape shape' : List (GateKind × List ℕ)}

theorem Lays.nil : Lays n ([] : List (Placement α)) [] [] :=
  ⟨fun _ hp => absurd hp List.not_mem_nil, rfl, rfl⟩

theorem Lays.append (h : Lays n ps as shape) (h' : Lays n ps' as' shape') :
    Lays n (ps ++ ps') (as ++ as') (shape ++ shape') where
  fits p hp := (List.mem_append.1 hp).elim (h.fits p) (h'.fits p)
  takes := by rw [List.filterMap_append, h.takes, h'.takes]
  shaped := by rw [List.map_append, h.shaped, h'.shaped]

/-- The gates of such placements. -/
theorem Lays.gates (h : Lays n ps angles shape) :
    (ps.map made).filterMap Gate.angle = angles ∧
      (ps.map made).map (fun g => (g.kind, g.qubits)) = shape :=
  ⟨(List.filterMap_map ..).trans h.takes, (List.map_map ..).trans h.shaped⟩

/-- A layer has three turns of each qubit, and one controlled negation fewer than qubits. -/
theorem length_layerShape (hn : 0 < n) : (layerShape n).length = 4 * n - 1 := by
  simp only [layerShape, List.length_append, List.length_flatMap, List.length_map,
    List.length_range, List.length_range', List.length_cons, List.length_nil, List.map_const',
    List.sum_replicate, smul_eq_mul]
  omega

/-! ## The pieces of a layer -/

section

variable [FullFidelity α]

theorem Lays.turn {k : GateKind} (hk : k.isRotation = true) {q : ℕ} (hq : q < n) (angle : α) :
    Lays n [turn k q angle] [angle] [(k, [q])] where
  fits p hp := by
    obtain rfl := List.mem_singleton.1 hp
    exact fitsIn_turn hk hq angle
  takes := by simp only [List.filterMap_cons, angle_made_turn hk, List.filterMap_nil]
  shaped := rfl

/-- A pair of angles for each of `m` qubits, from qubit `q` on. -/
theorem lays_turnPairs {m q : ℕ} (hm : q + m ≤ n) (hlen : angles.length = 2 * m) :
    Lays n (turnPairs q angles) angles
      ((List.range' q m).flatMap fun q => [(.ry, [q]), (.rz, [q])]) := by
  induction m generalizing q angles with
  | zero =>
    obtain rfl := List.length_eq_zero_iff.1 hlen
    exact .nil
  | succ m ih =>
    match angles, hlen with
    | a :: b :: rest, hlen =>
      have hrest : rest.length = 2 * m := by simp only [List.length_cons] at hlen; omega
      exact (Lays.turn rfl (by omega) a).append
        ((Lays.turn rfl (by omega) b).append (ih (by omega) hrest))

/-- The controlled negations take no angle. -/
theorem lays_ladder (n : ℕ) : Lays n (ladder n : List (Placement α)) []
    ((List.range' 1 (n - 1)).map fun q => (.cnot, [q - 1, q])) where
  fits p hp := by
    obtain ⟨q, hq, rfl⟩ := List.mem_map.1 hp
    have hrange := List.mem_range'_1.1 hq
    exact fitsIn_two rfl (by omega) (by omega) (by omega)
  takes := by
    rw [ladder, List.filterMap_map, List.filterMap_eq_nil_iff]
    exact fun q _ => angle_made_of rfl _
  shaped := by rw [ladder, List.map_map]; rfl

/-- A closing angle for each of a number of qubits, from qubit `q` on. -/
theorem lays_closing {q : ℕ} (hm : q + angles.length ≤ n) :
    Lays n ((angles.zipIdx q).map fun (a, q) => Placement.turn .ry q a) angles
      ((List.range' q angles.length).map fun q => (.ry, [q])) := by
  induction angles generalizing q with
  | nil => exact .nil
  | cons a angles ih =>
    rw [List.length_cons] at hm
    exact (Lays.turn rfl (by omega) a).append (ih (by omega))

theorem lays_layer (hlen : angles.length = 3 * n) :
    Lays n (layer n angles) angles (layerShape n) := by
  have hpairs : (angles.take (2 * n)).length = 2 * n := by rw [List.length_take]; omega
  have hclosing : (angles.drop (2 * n)).length = n := by rw [List.length_drop]; omega
  have h := ((lays_turnPairs (zero_add n).le hpairs).append (lays_ladder n)).append
    (lays_closing (q := 0) (by rw [hclosing, zero_add]))
  rwa [List.append_nil, List.take_append_drop, hclosing, ← List.range_eq_range'] at h

/-- Layer by layer, the angles of a list that is long enough for all layers are used up. -/
theorem lays_layersOf (layers : ℕ) (hlen : angles.length = 3 * n * layers) :
    Lays n (layersOf n layers angles) angles (List.replicate layers (layerShape n)).flatten := by
  induction layers generalizing angles with
  | zero =>
    obtain rfl := List.length_eq_zero_iff.1 hlen
    exact .nil
  | succ layers ih =>
    rw [mul_add_one] at hlen
    -- the first layer takes its angles from the front, the other layers take what is left
    have hfirst : (angles.take (3 * n)).length = 3 * n := by rw [List.length_take]; omega
    have hrest : (angles.drop (3 * n)).length = 3 * n * layers := by rw [List.length_drop]; omega
    have h := (lays_layer hfirst).append (ih hrest)
    rwa [List.take_append_drop] at h

end

end

/-! ## The circuits -/

variable {α : Type} [Scalar α] [FullFidelity α]

/-- The circuit of an ansatz that can be stored, with what its gates are. -/
theorem circuit_of_storage {n layers : ℕ} (hn : 0 < n) {angles : List α}
    (hcount : parameterCount n layers = 3 * n * layers) (hlen : angles.length = 3 * n * layers)
    (hstorage : Storage.holdsPairs n = true) :
    circuit n layers angles =
      .ok ((Circuit.blank n n).appendGates ((layersOf n layers angles).map made)) := by
  have hlayers : angles.length / (anglesPerQubit * n) = layers := by
    rw [hlen, anglesPerQubit, Nat.mul_div_cancel_left _ (by omega)]
  rw [circuit, if_neg hn.ne', if_pos (hlen.trans hcount.symm), hlayers,
    Circuit.checkRegister_eq_ok_iff.2 hstorage]
  exact Circuit.build_of_fitsIn n (lays_layersOf layers hlen).fits

/-- **An ansatz takes every angle once and in order.** Any number of angles but three for each qubit
in each layer is refused. With that number, the ansatz has the same gates in every layer, and its
rotations turn by the angles of the list, from the first gate to the last. It is refused only where
the register cannot be stored, which a stored list of at least one layer rules out. -/
theorem circuit_takes_angles (n layers : ℕ) (hn : 0 < n) (hcount : 3 * n * layers < Index.limit)
    (angles : List α) :
    (angles.length ≠ 3 * n * layers →
      circuit n layers angles =
        .error (.parameterCount (3 * n * layers) n layers angles.length)) ∧
    (angles.length = 3 * n * layers →
      (0 < layers → Storage.holdsScalars angles.length = true → Storage.holdsPairs n = true) ∧
      (Storage.holdsPairs n = false → circuit n layers angles = .error (.circuit (.noStorage n))) ∧
      (Storage.holdsPairs n = true → ∃ c, circuit n layers angles = .ok c ∧ c.width = n ∧
        c.gates.filterMap Gate.angle = angles ∧
        c.gates.map (fun g => (g.kind, g.qubits)) =
          (List.replicate layers (layerShape n)).flatten ∧
        c.gates.length = layers * (4 * n - 1))) := by
  have hexpected : parameterCount n layers = 3 * n * layers := Index.wrap_of_lt hcount
  refine ⟨fun hlen => ?_, fun hlen => ⟨fun hlayers hheld => ?_, fun hstorage => ?_,
    fun hstorage => ?_⟩⟩
  · rw [circuit, if_neg hn.ne', hexpected, if_neg hlen]
  · -- a register takes less room than the angles of one layer
    have hholds : 8 * angles.length < Storage.limit := of_decide_eq_true hheld
    have hlayer : 3 * n * 1 ≤ 3 * n * layers := Nat.mul_le_mul_left _ hlayers
    exact decide_eq_true (by omega : 16 * n < Storage.limit)
  · rw [circuit, if_neg hn.ne', if_pos (hlen.trans hexpected.symm),
      Circuit.checkRegister_of_no_storage hstorage]
    rfl
  · obtain ⟨hangles, hshape⟩ := (lays_layersOf layers hlen).gates
    refine ⟨_, circuit_of_storage hn hexpected hlen hstorage, rfl, hangles, hshape, ?_⟩
    have hlength := congrArg List.length hshape
    rwa [List.length_map, List.length_flatten, List.map_replicate, List.sum_replicate,
      length_layerShape hn, smul_eq_mul] at hlength

/-- An ansatz of two qubits and two layers, and a list with an angle too few. -/
theorem circuit_takes_angles_twoByTwo : 0 < 2 ∧ 3 * 2 * 2 < Index.limit ∧
    (∃ c : Circuit ℝ, circuit 2 2 [1, 2, 3, 4, 5, 6, 7, 8, 9, 10, 11, 12] = .ok c ∧
      c.gates.filterMap Gate.angle = [1, 2, 3, 4, 5, 6, 7, 8, 9, 10, 11, 12] ∧
      c.gates.map (fun g => (g.kind, g.qubits)) = layerShape 2 ++ layerShape 2 ∧
      c.gates.length = 14) ∧
    (circuit 2 1 [1, 2, 3, 4, 5] : Except (TaskError ℝ) (Circuit ℝ)) =
      .error (.parameterCount 6 2 1 5) := by
  obtain ⟨c, hc, -, hangles, hshape, hlength⟩ :=
    ((circuit_takes_angles 2 2 (by decide) (by decide)
      [(1 : ℝ), 2, 3, 4, 5, 6, 7, 8, 9, 10, 11, 12]).2 rfl).2.2 rfl
  exact ⟨by decide, by decide, ⟨c, hc, hangles, hshape, hlength⟩,
    (circuit_takes_angles 2 1 (by decide) (by decide) [(1 : ℝ), 2, 3, 4, 5]).1 (by simp)⟩

end QuantumWorkbench.Ansatz
