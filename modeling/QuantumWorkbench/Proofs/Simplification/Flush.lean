import QuantumWorkbench.Proofs.Simplification.Fusing
import Mathlib.Data.List.Basic
import Mathlib.Logic.Function.Iterate

/-!
# Fusing without merging

Where no rotations are merged, fusing only changes their order. Between two gates of other kinds
each rotation is put out when the next one of its qubit comes, and the last rotations of all qubits
follow in the order of the qubits. Done again and again this settles: the last rotations stay where
they are from the first time on, those before them from the second, and so on.
-/

namespace QuantumWorkbench.Simplification

variable {α : Type}

/-- The qubit at which a rotation is held back. -/
def place (g : Gate α) : Nat := g.qubits.headD 0

theorem place_eq {g : Gate α} {q : Nat} (hq : g.qubits = [q]) : place g = q := by
  rw [place, hq]
  rfl

/-- Holding back one rotation for each qubit, without merging. -/
def flushFrom (pending : Pending α) : List (Gate α) → List (Gate α)
  | [] => pending.values
  | g :: gs =>
    if g.isRotation then
      (pending.get? (place g)).toList ++ flushFrom (pending.insert (place g) g) gs
    else pending.values ++ g :: flushFrom .empty gs

/-- The order that fusing gives to a list in which nothing is merged. -/
def flush (gates : List (Gate α)) : List (Gate α) := flushFrom .empty gates

/-- What is held back lies at its place. -/
def AtPlace (pending : Pending α) : Prop :=
  ∀ e ∈ pending.entries, e.2.isRotation = true ∧ place e.2 = e.1

theorem atPlace_empty : AtPlace (.empty : Pending α) := fun _ he => by cases he

theorem AtPlace.insert {pending : Pending α} (hp : AtPlace pending) {g : Gate α}
    (hr : g.isRotation = true) : AtPlace (pending.insert (place g) g) := fun e he => by
  rcases SortedMap.mem_entries_insert he with rfl | he
  · exact ⟨hr, rfl⟩
  · exact hp e he

theorem AtPlace.get? {pending : Pending α} (hp : AtPlace pending) {q : Nat} {g : Gate α}
    (h : pending.get? q = some g) : g.isRotation = true ∧ place g = q :=
  hp _ (SortedMap.mem_entries_of_get? h)

/-! ## What stays the same -/

theorem length_flushFrom (pending : Pending α) (gates : List (Gate α)) :
    (flushFrom pending gates).length = pending.values.length + gates.length := by
  induction gates generalizing pending with
  | nil => rfl
  | cons g gs ih =>
    rw [flushFrom]
    split
    · have hlen := pending.length_values_insert (place g) g
      rw [List.length_append, ih, List.length_cons]
      omega
    · rw [List.length_append, List.length_cons, ih]
      simp [SortedMap.values, SortedMap.empty]

@[simp] theorem length_flush (gates : List (Gate α)) : (flush gates).length = gates.length := by
  rw [flush, length_flushFrom]
  simp [SortedMap.values, SortedMap.empty]

theorem mem_flushFrom {pending : Pending α} {gates : List (Gate α)} {x : Gate α}
    (h : x ∈ flushFrom pending gates) : x ∈ pending.values ∨ x ∈ gates := by
  induction gates generalizing pending with
  | nil => exact Or.inl h
  | cons g gs ih =>
    rw [flushFrom] at h
    split at h
    · -- what comes out was held back at the place of the gate
      rcases List.mem_append.1 h with h | h
      · exact Or.inl (List.mem_map.2
          ⟨_, SortedMap.mem_entries_of_get? (Option.mem_toList.1 h), rfl⟩)
      · rcases ih h with h | h
        · obtain ⟨e, he, rfl⟩ := List.mem_map.1 h
          rcases SortedMap.mem_entries_insert he with rfl | he
          · exact Or.inr List.mem_cons_self
          · exact Or.inl (List.mem_map.2 ⟨e, he, rfl⟩)
        · exact Or.inr (List.mem_cons_of_mem g h)
    · rcases List.mem_append.1 h with h | h
      · exact Or.inl h
      · rcases List.mem_cons.1 h with rfl | h
        · exact Or.inr List.mem_cons_self
        · rcases ih h with h | h
          · cases h
          · exact Or.inr (List.mem_cons_of_mem g h)

/-- The gates that a qubit sees: the rotations of the qubit and all gates that do not rotate. -/
def seenBy (q : Nat) (g : Gate α) : Bool := !g.isRotation || place g == q

/-- What is held back at a qubit is all of it that the qubit sees. -/
theorem filter_values {pending : Pending α} (hp : AtPlace pending) (q : Nat) :
    pending.values.filter (seenBy q) = (pending.get? q).toList := by
  obtain ⟨before, after, hvalues, -, hother⟩ := pending.exists_values_split q
  have hnone : ∀ part : List (Nat × Gate α), (∀ e ∈ part, e ∈ before ++ after) →
      (part.map Prod.snd).filter (seenBy q) = [] := fun part hpart =>
    List.filter_eq_nil_iff.2 fun g hg => by
      obtain ⟨e, he, rfl⟩ := List.mem_map.1 hg
      obtain ⟨hmem, hne⟩ := hother e (hpart e he)
      obtain ⟨hr, hplace⟩ := hp e hmem
      simp [seenBy, hr, hplace, hne]
  rw [hvalues, List.filter_append, List.filter_append,
    hnone before fun e he => List.mem_append_left _ he,
    hnone after fun e he => List.mem_append_right _ he, List.append_nil, List.nil_append]
  cases hget : pending.get? q with
  | none => rfl
  | some g =>
    obtain ⟨hr, hplace⟩ := hp.get? hget
    simp [seenBy, hr, hplace]

/-- **No qubit sees a change**: flushing keeps the order of the gates that a qubit sees. -/
theorem filter_flushFrom {pending : Pending α} (hp : AtPlace pending) (gates : List (Gate α))
    (q : Nat) : (flushFrom pending gates).filter (seenBy q) =
      (pending.get? q).toList ++ gates.filter (seenBy q) := by
  induction gates generalizing pending with
  | nil => rw [flushFrom, filter_values hp, List.filter_nil, List.append_nil]
  | cons g gs ih =>
    rw [flushFrom]
    split
    · next hr =>
      rw [List.filter_append, ih (hp.insert hr)]
      by_cases hq : place g = q
      · -- the rotation that was held back comes out, the new one takes its place
        have hseen : seenBy q g = true := by simp [seenBy, hq]
        rw [List.filter_cons_of_pos hseen, hq, SortedMap.get?_insert_self]
        cases hget : pending.get? q with
        | none => rfl
        | some held =>
          obtain ⟨hheld, hplace⟩ := hp.get? hget
          simp [seenBy, hplace]
      · -- a rotation of another qubit is not seen, nor is the one it puts out
        have hseen : ¬ seenBy q g = true := by simp [seenBy, hr, hq]
        rw [List.filter_cons_of_neg hseen, SortedMap.get?_insert_of_ne _ (Ne.symm hq)]
        cases hget : pending.get? (place g) with
        | none => rfl
        | some held =>
          obtain ⟨hheld, hplace⟩ := hp.get? hget
          simp [seenBy, hheld, hplace, hq]
    · next hr =>
      -- every qubit sees this gate, and all that is held back comes out before it
      have hseen : seenBy q g = true := by simp [seenBy, hr]
      rw [List.filter_append, filter_values hp, List.filter_cons_of_pos hseen,
        List.filter_cons_of_pos hseen, ih atPlace_empty]
      rfl

theorem filter_flush (gates : List (Gate α)) (q : Nat) :
    (flush gates).filter (seenBy q) = gates.filter (seenBy q) :=
  filter_flushFrom atPlace_empty gates q

/-- What every qubit sees and who sees each gate determine a list of gates. -/
theorem eq_of_filter_eq {gs hs : List (Gate α)}
    (hseen : ∀ q, gs.filter (seenBy q) = hs.filter (seenBy q))
    (hrotation : gs.map Gate.isRotation = hs.map Gate.isRotation)
    (hplace : gs.map place = hs.map place) : gs = hs := by
  induction gs generalizing hs with
  | nil =>
    cases hs with
    | nil => rfl
    | cons h hs => cases hplace
  | cons g gs ih =>
    cases hs with
    | nil => cases hplace
    | cons h hs =>
      simp only [List.map_cons, List.cons.injEq] at hrotation hplace
      have hboth : ∀ q, seenBy q h = seenBy q g := fun q => by
        rw [seenBy, seenBy, hrotation.1, hplace.1]
      -- the qubit of the two first gates sees both of them
      have hfirst := hseen (place g)
      have hg : seenBy (place g) g = true := by simp [seenBy]
      rw [List.filter_cons_of_pos hg, List.filter_cons_of_pos ((hboth _).trans hg),
        List.cons.injEq] at hfirst
      obtain ⟨rfl, -⟩ := hfirst
      refine congrArg (g :: ·) (ih (fun q => ?_) hrotation.2 hplace.2)
      have hq := hseen q
      by_cases hgq : seenBy q g = true
      · rw [List.filter_cons_of_pos hgq, List.filter_cons_of_pos hgq, List.cons.injEq] at hq
        exact hq.2
      · rwa [List.filter_cons_of_neg hgq, List.filter_cons_of_neg hgq] at hq

/-! ## Rotations only -/

/-- The rotations that are put out before the end. -/
def emitted (pending : Pending α) : List (Gate α) → List (Gate α)
  | [] => []
  | g :: gs => (pending.get? (place g)).toList ++ emitted (pending.insert (place g) g) gs

/-- The rotations that are held back in the end. -/
def heldAfter (pending : Pending α) : List (Gate α) → Pending α
  | [] => pending
  | g :: gs => heldAfter (pending.insert (place g) g) gs

theorem flushFrom_of_rotations {gates : List (Gate α)} (hr : ∀ g ∈ gates, g.isRotation = true)
    (pending : Pending α) :
    flushFrom pending gates = emitted pending gates ++ (heldAfter pending gates).values := by
  induction gates generalizing pending with
  | nil => rfl
  | cons g gs ih =>
    obtain ⟨hg, hgs⟩ := List.forall_mem_cons.1 hr
    rw [flushFrom, if_pos hg, ih hgs, emitted, List.append_assoc]
    rfl

theorem emitted_append (pending : Pending α) (gs hs : List (Gate α)) :
    emitted pending (gs ++ hs) = emitted pending gs ++ emitted (heldAfter pending gs) hs := by
  induction gs generalizing pending with
  | nil => rfl
  | cons g gs ih =>
    rw [List.cons_append, emitted, emitted, ih, List.append_assoc]
    rfl

theorem heldAfter_append (pending : Pending α) (gs hs : List (Gate α)) :
    heldAfter pending (gs ++ hs) = heldAfter (heldAfter pending gs) hs := by
  induction gs generalizing pending with
  | nil => rfl
  | cons g gs ih => exact ih _

theorem atPlace_heldAfter {pending : Pending α} (hp : AtPlace pending) {gates : List (Gate α)}
    (hr : ∀ g ∈ gates, g.isRotation = true) : AtPlace (heldAfter pending gates) := by
  induction gates generalizing pending with
  | nil => exact hp
  | cons g gs ih =>
    obtain ⟨hg, hgs⟩ := List.forall_mem_cons.1 hr
    exact ih (hp.insert hg) hgs

theorem isSome_heldAfter {pending : Pending α} {gates : List (Gate α)} {q : Nat}
    (h : (pending.get? q).isSome = true ∨ ∃ g ∈ gates, place g = q) :
    ((heldAfter pending gates).get? q).isSome = true := by
  induction gates generalizing pending with
  | nil => simpa [heldAfter] using h
  | cons g gs ih =>
    refine ih ?_
    by_cases hq : place g = q
    · exact Or.inl (by rw [hq, SortedMap.get?_insert_self]; rfl)
    · rw [SortedMap.get?_insert_of_ne _ (Ne.symm hq)]
      apply h.imp_right
      rintro ⟨x, hx, hxq⟩
      rcases List.mem_cons.1 hx with rfl | hx
      · exact absurd hxq hq
      · exact ⟨x, hx, hxq⟩

theorem get?_heldAfter_of_ne {pending : Pending α} {gates : List (Gate α)} {q : Nat}
    (h : ∀ g ∈ gates, place g ≠ q) : (heldAfter pending gates).get? q = pending.get? q := by
  induction gates generalizing pending with
  | nil => rfl
  | cons g gs ih =>
    obtain ⟨hg, hgs⟩ := List.forall_mem_cons.1 h
    exact (ih hgs).trans (SortedMap.get?_insert_of_ne _ (Ne.symm hg) _)

theorem mem_emitted {pending : Pending α} {gates : List (Gate α)} {x : Gate α}
    (hr : ∀ g ∈ gates, g.isRotation = true) (h : x ∈ emitted pending gates) :
    x ∈ pending.values ∨ x ∈ gates := by
  refine mem_flushFrom ?_
  rw [flushFrom_of_rotations hr]
  exact List.mem_append_left _ h

/-! ## One rotation for every qubit -/

/-- Rotations at the places of a map, in their order, take the place of what was held back. -/
theorem emitted_of_sorted {es : List (Nat × Gate α)} (hes : Entries.Sorted es)
    (hplace : ∀ e ∈ es, place e.2 = e.1) (pending : Pending α) :
    emitted pending (es.map Prod.snd) = es.flatMap fun e => (pending.get? e.1).toList := by
  induction es generalizing pending with
  | nil => rfl
  | cons e es ih =>
    obtain ⟨hhead, htail⟩ := List.pairwise_cons.1 hes
    obtain ⟨he, hrest⟩ := List.forall_mem_cons.1 hplace
    rw [List.map_cons, emitted, ih htail hrest, List.flatMap_cons, he]
    congr 1
    apply List.flatMap_congr
    intro e' he'
    have hne : e'.1 ≠ e.1 := fun h => KeyOrder.irrefl e.1 (h ▸ hhead e' he')
    rw [SortedMap.get?_insert_of_ne _ hne]

/-- Keys that come after the first of a list are among its others. -/
theorem exists_mem_tail {e : Nat × Gate α} {es fs : List (Nat × Gate α)}
    (hafter : ∀ x ∈ fs, KeyOrder.lt e.1 x.1) (hsub : ∀ x ∈ fs, ∃ y ∈ e :: es, y.1 = x.1) :
    ∀ x ∈ fs, ∃ y ∈ es, y.1 = x.1 := by
  intro x hx
  obtain ⟨y, hy, hkey⟩ := hsub x hx
  rcases List.mem_cons.1 hy with rfl | hy
  · exact absurd (hkey ▸ hafter x hx) (KeyOrder.irrefl _)
  · exact ⟨y, hy, hkey⟩

/-- Looking up all keys of a longer list in order gives the values in order. -/
theorem flatMap_find? {es fs : List (Nat × Gate α)} (hes : Entries.Sorted es)
    (hfs : Entries.Sorted fs) (hsub : ∀ e ∈ fs, ∃ e' ∈ es, e'.1 = e.1) :
    (es.flatMap fun e => (Entries.find? e.1 fs).toList) = fs.map Prod.snd := by
  -- both lists are gone through from their first keys on
  induction es generalizing fs with
  | nil =>
    cases fs with
    | nil => rfl
    | cons f fs =>
      obtain ⟨e, he, -⟩ := hsub f List.mem_cons_self
      cases he
  | cons e es ih =>
    obtain ⟨hhead, htail⟩ := List.pairwise_cons.1 hes
    cases fs with
    | nil => simp [Entries.find?]
    | cons f fs =>
      obtain ⟨hheadf, htailf⟩ := List.pairwise_cons.1 hfs
      obtain ⟨hfirst, hothers⟩ := List.forall_mem_cons.1 hsub
      obtain ⟨e', he', hkey⟩ := hfirst
      rw [List.flatMap_cons]
      rcases List.mem_cons.1 he' with rfl | he'
      · -- the first keys agree, and the others come after them
        have hrest : ∀ x ∈ es, Entries.find? x.1 (f :: fs) = Entries.find? x.1 fs := fun x hx => by
          have hlt := hkey ▸ hhead x hx
          rw [Entries.find?, if_neg (Entries.not_lt_of_lt hlt), if_pos hlt]
        have hself : Entries.find? e'.1 (f :: fs) = some f.2 := by
          rw [Entries.find?, if_neg (hkey ▸ KeyOrder.irrefl _), if_neg (hkey ▸ KeyOrder.irrefl _)]
        have hsub' := exists_mem_tail (fun x hx => hkey ▸ hheadf x hx) hothers
        rw [List.flatMap_congr fun x hx => by rw [hrest x hx], ih htail htailf hsub', hself]
        rfl
      · -- the first key comes before all that are looked up
        have hlt : KeyOrder.lt e.1 f.1 := hkey ▸ hhead e' he'
        have hafter : ∀ x ∈ f :: fs, KeyOrder.lt e.1 x.1 :=
          List.forall_mem_cons.2 ⟨hlt, fun x hx => KeyOrder.trans hlt (hheadf x hx)⟩
        have hnone : Entries.find? e.1 (f :: fs) = none := by rw [Entries.find?, if_pos hlt]
        rw [hnone, ih htail hfs (exists_mem_tail hafter hsub)]
        rfl

theorem get?_heldAfter_of_sorted {es : List (Nat × Gate α)} (hes : Entries.Sorted es)
    (hplace : ∀ e ∈ es, place e.2 = e.1) (pending : Pending α) (q : Nat) :
    (heldAfter pending (es.map Prod.snd)).get? q =
      (Entries.find? q es).or (pending.get? q) := by
  induction es generalizing pending with
  | nil => rfl
  | cons e es ih =>
    obtain ⟨hhead, htail⟩ := List.pairwise_cons.1 hes
    obtain ⟨he, hrest⟩ := List.forall_mem_cons.1 hplace
    rw [List.map_cons, heldAfter, ih htail hrest, he, Entries.find?]
    by_cases hlt : KeyOrder.lt q e.1
    · have hnone := Entries.find?_eq_none_of_lt fun x hx => KeyOrder.trans hlt (hhead x hx)
      have hne : q ≠ e.1 := fun h => KeyOrder.irrefl e.1 (h ▸ hlt)
      rw [if_pos hlt, hnone, SortedMap.get?_insert_of_ne _ hne]
    · by_cases hgt : KeyOrder.lt e.1 q
      · have hne : q ≠ e.1 := fun h => KeyOrder.irrefl e.1 (h ▸ hgt)
        rw [if_neg hlt, if_pos hgt, SortedMap.get?_insert_of_ne _ hne]
      · obtain rfl := KeyOrder.eq_of_not_lt hlt hgt
        rw [if_neg hlt, if_neg hgt, Entries.find?_eq_none_of_lt hhead, SortedMap.get?_insert_self]
        rfl

/-- **The last rotations stay where they are**: flushing does not touch a list that ends with one
rotation for every qubit, in the order of the qubits. -/
theorem flush_append_values {gates : List (Gate α)} (hr : ∀ g ∈ gates, g.isRotation = true)
    {last : Pending α} (hlast : AtPlace last)
    (hcover : ∀ g ∈ gates, (last.get? (place g)).isSome = true) :
    flush (gates ++ last.values) = flush gates ++ last.values := by
  have hlastr : ∀ g ∈ last.values, g.isRotation = true := fun g hg => by
    obtain ⟨e, he, rfl⟩ := List.mem_map.1 hg
    exact (hlast e he).1
  have hplace : ∀ e ∈ last.entries, place e.2 = e.1 := fun e he => (hlast e he).2
  have hkeys : ∀ {q : Nat}, ((heldAfter .empty gates).get? q).isSome = true →
      (last.get? q).isSome = true := fun {q} hq => by
    by_contra hnone
    have hne : ∀ g ∈ gates, place g ≠ q := fun g hg h => hnone (h ▸ hcover g hg)
    rw [get?_heldAfter_of_ne hne] at hq
    cases hq
  -- the qubits of all rotations held back are among those of the last rotations
  have hemitted : emitted (heldAfter .empty gates) last.values =
      (heldAfter .empty gates).values := by
    refine (emitted_of_sorted last.sorted hplace _).trans
      (flatMap_find? last.sorted (heldAfter .empty gates).sorted fun e he => ?_)
    have hsome := SortedMap.get?_of_mem_entries he
    obtain ⟨g, hg⟩ := Option.isSome_iff_exists.1 (hkeys (by rw [hsome]; rfl))
    exact ⟨(e.1, g), SortedMap.mem_entries_of_get? hg, rfl⟩
  -- and the last rotations take the place of all of them
  have hheld : heldAfter (heldAfter .empty gates) last.values = last := by
    apply SortedMap.ext_get?
    intro q
    rw [SortedMap.values, get?_heldAfter_of_sorted last.sorted hplace]
    cases hget : last.get? q with
    | some g => rw [show Entries.find? q last.entries = some g from hget]; rfl
    | none =>
      have hnone : (heldAfter .empty gates).get? q = none := by
        by_contra h
        have := hkeys (Option.isSome_iff_ne_none.2 h)
        rw [hget] at this
        cases this
      rw [show Entries.find? q last.entries = none from hget, hnone]
      rfl
  rw [flush, flush, flushFrom_of_rotations (List.forall_mem_append.2 ⟨hr, hlastr⟩),
    flushFrom_of_rotations hr, emitted_append, heldAfter_append, hemitted, hheld]

/-! ## Again and again -/

/-- The rotations before the last ones of all qubits. -/
def earlier (gates : List (Gate α)) : List (Gate α) := emitted .empty gates

/-- The last rotations of all qubits. -/
def latest (gates : List (Gate α)) : Pending α := heldAfter .empty gates

section Rotations

variable {gates : List (Gate α)} (hr : ∀ g ∈ gates, g.isRotation = true)
include hr

theorem flush_eq : flush gates = earlier gates ++ (latest gates).values :=
  flushFrom_of_rotations hr .empty

theorem mem_of_mem_earlier {x : Gate α} (h : x ∈ earlier gates) : x ∈ gates := by
  rcases mem_emitted hr h with h | h
  · cases h
  · exact h

theorem atPlace_latest : AtPlace (latest gates) := atPlace_heldAfter atPlace_empty hr

omit hr in
theorem isSome_latest {x : Gate α} (h : x ∈ gates) :
    ((latest gates).get? (place x)).isSome = true := isSome_heldAfter (Or.inr ⟨x, h, rfl⟩)

theorem mem_iterate_flush {x : Gate α} (k : Nat) (h : x ∈ flush^[k] gates) : x ∈ gates := by
  induction k generalizing gates with
  | zero => exact h
  | succ k ih =>
    have hmem : ∀ y ∈ flush gates, y ∈ gates := fun y hy => by
      rcases mem_flushFrom hy with hy | hy
      · cases hy
      · exact hy
    exact hmem x (ih (fun y hy => hr y (hmem y hy)) h)

/-- Flushing once fixes the last rotations; flushing on settles those before them. -/
theorem iterate_succ_flush (k : Nat) :
    flush^[k + 1] gates = flush^[k] (earlier gates) ++ (latest gates).values := by
  have hearlier : ∀ g ∈ earlier gates, g.isRotation = true := fun g hg =>
    hr g (mem_of_mem_earlier hr hg)
  induction k with
  | zero => exact flush_eq hr
  | succ k ih =>
    rw [Function.iterate_succ_apply', ih, Function.iterate_succ_apply']
    refine flush_append_values (fun g hg => hearlier g (mem_iterate_flush hearlier k hg))
      (atPlace_latest hr) fun g hg => ?_
    exact isSome_latest (mem_of_mem_earlier hr (mem_iterate_flush hearlier k hg))

/-- What a qubit sees of a list of rotations is what it sees of the earlier ones, and its last. -/
theorem filter_earlier_append (q : Nat) :
    (earlier gates).filter (seenBy q) ++ ((latest gates).get? q).toList =
      gates.filter (seenBy q) := by
  rw [← filter_flush gates q, flush_eq hr, List.filter_append, filter_values (atPlace_latest hr)]

theorem length_earlier_add :
    (earlier gates).length + (latest gates).values.length = gates.length := by
  rw [← List.length_append, ← flush_eq hr, length_flush]

/-- A qubit without a last rotation sees no earlier one either. -/
theorem filter_earlier_of_none {q : Nat} (h : (latest gates).get? q = none) :
    (earlier gates).filter (seenBy q) = [] := by
  apply List.filter_eq_nil_iff.2
  intro g hg hseen
  have hmem := mem_of_mem_earlier hr hg
  have hplace : place g = q := by simpa [seenBy, hr g hmem] using hseen
  have hsome := isSome_latest hmem
  rw [hplace, h] at hsome
  cases hsome

end Rotations

/-- Lists of rotations of which all qubits see the same have the same last rotations, and the same
is seen of their earlier ones. -/
theorem earlier_latest_eq {gs hs : List (Gate α)} (hg : ∀ g ∈ gs, g.isRotation = true)
    (hh : ∀ h ∈ hs, h.isRotation = true)
    (hseen : ∀ q, gs.filter (seenBy q) = hs.filter (seenBy q)) :
    latest gs = latest hs ∧
      ∀ q, (earlier gs).filter (seenBy q) = (earlier hs).filter (seenBy q) := by
  have hboth : ∀ q, (latest gs).get? q = (latest hs).get? q ∧
      (earlier gs).filter (seenBy q) = (earlier hs).filter (seenBy q) := fun q => by
    have hsum := hseen q
    rw [← filter_earlier_append hg, ← filter_earlier_append hh] at hsum
    -- the last gate that the qubit sees is its last rotation, in both lists
    cases hgq : (latest gs).get? q with
    | none =>
      rw [filter_earlier_of_none hg hgq, hgq] at hsum
      cases hhq : (latest hs).get? q with
      | none => exact ⟨rfl, by rw [filter_earlier_of_none hg hgq, filter_earlier_of_none hh hhq]⟩
      | some b => simp [hhq] at hsum
    | some a =>
      cases hhq : (latest hs).get? q with
      | none => simp [hgq, hhq, filter_earlier_of_none hh hhq] at hsum
      | some b =>
        rw [hgq, hhq] at hsum
        obtain ⟨hfilter, hlast⟩ := List.append_inj' hsum rfl
        cases hlast
        exact ⟨rfl, hfilter⟩
  exact ⟨SortedMap.ext_get? fun q => (hboth q).1, fun q => (hboth q).2⟩

theorem length_earlier_le {gates : List (Gate α)} (hr : ∀ g ∈ gates, g.isRotation = true) {k : Nat}
    (hk : gates.length ≤ k + 1) : (earlier gates).length ≤ k := by
  have hlen := length_earlier_add hr
  cases gates with
  | nil => exact Nat.zero_le k
  | cons g gs =>
    have hfirst : g ∈ g :: gs := List.mem_cons_self
    obtain ⟨x, hx⟩ := Option.isSome_iff_exists.1 (isSome_latest hfirst)
    have hmem : x ∈ (latest (g :: gs)).values :=
      List.mem_map.2 ⟨_, SortedMap.mem_entries_of_get? hx, rfl⟩
    have hpos := List.length_pos_of_mem hmem
    omega

/-- **Flushing forgets the order**: lists of rotations of which all qubits see the same settle to
one list. -/
theorem iterate_flush_eq {gs hs : List (Gate α)} (hg : ∀ g ∈ gs, g.isRotation = true)
    (hh : ∀ h ∈ hs, h.isRotation = true)
    (hseen : ∀ q, gs.filter (seenBy q) = hs.filter (seenBy q)) {k : Nat} (hk : gs.length ≤ k) :
    flush^[k] gs = flush^[k] hs := by
  induction k generalizing gs hs with
  | zero =>
    have hgs := List.length_eq_zero_iff.1 (Nat.le_zero.1 hk)
    have hhs : hs = [] := List.eq_nil_iff_forall_not_mem.2 fun h hmem => by
      have hempty := (hseen (place h)).symm
      rw [hgs, List.filter_nil, List.filter_eq_nil_iff] at hempty
      exact hempty h hmem (by simp [seenBy])
    rw [hgs, hhs]
  | succ k ih =>
    -- the last rotations agree at once, and fewer rotations come before them
    obtain ⟨hlatest, hearlier⟩ := earlier_latest_eq hg hh hseen
    rw [iterate_succ_flush hg, iterate_succ_flush hh, hlatest,
      ih (fun g hmem => hg g (mem_of_mem_earlier hg hmem))
        (fun h hmem => hh h (mem_of_mem_earlier hh hmem)) hearlier (length_earlier_le hg hk)]

/-! ## All gates -/

theorem flushFrom_append_cons {g : Gate α} (hg : g.isRotation = false) (gs hs : List (Gate α))
    (pending : Pending α) :
    flushFrom pending (gs ++ g :: hs) = flushFrom pending gs ++ g :: flush hs := by
  induction gs generalizing pending with
  | nil => simp [flushFrom, hg, flush]
  | cons x xs ih =>
    rw [List.cons_append, flushFrom, flushFrom]
    split
    · rw [ih, List.append_assoc]
    · rw [ih, List.append_assoc]
      rfl

/-- A gate that does not rotate keeps the parts before and after it apart. -/
theorem iterate_flush_append_cons {g : Gate α} (hg : g.isRotation = false) (gs hs : List (Gate α))
    (k : Nat) : flush^[k] (gs ++ g :: hs) = flush^[k] gs ++ g :: flush^[k] hs := by
  induction k with
  | zero => rfl
  | succ k ih =>
    rw [Function.iterate_succ_apply', ih, Function.iterate_succ_apply',
      Function.iterate_succ_apply']
    exact flushFrom_append_cons hg _ _ _

/-- **Flushing settles** after as many times as there are gates. -/
theorem iterate_flush_succ {gates : List (Gate α)} {k : Nat} (hk : gates.length ≤ k) :
    flush^[k + 1] gates = flush^[k] gates := by
  induction hlen : gates.length using Nat.strongRecOn generalizing gates with
  | ind n ih =>
    subst hlen
    by_cases hr : ∀ g ∈ gates, g.isRotation = true
    · -- flushing once more starts from another order of the same rotations
      have hflush : ∀ g ∈ flush gates, g.isRotation = true := fun g hg => by
        rcases mem_flushFrom hg with hg | hg
        · cases hg
        · exact hr g hg
      exact iterate_flush_eq hflush hr (filter_flush gates) (by rw [length_flush]; exact hk)
    · -- both sides of a gate that does not rotate are shorter
      obtain ⟨g, hg, hnot⟩ : ∃ g ∈ gates, g.isRotation = false := by simpa using hr
      obtain ⟨before, after, rfl⟩ := List.append_of_mem hg
      rw [List.length_append, List.length_cons] at hk ih
      rw [iterate_flush_append_cons hnot, iterate_flush_append_cons hnot,
        ih before.length (by omega) (by omega) rfl, ih after.length (by omega) (by omega) rfl]

/-! ## Widths -/

theorem map_width_of_forall {gs : List (Gate α)} (h : ∀ g ∈ gs, g.width = 1) :
    gs.map Gate.width = List.replicate gs.length 1 := by
  refine List.eq_replicate_iff.2 ⟨List.length_map _, fun w hw => ?_⟩
  obtain ⟨g, hg, rfl⟩ := List.mem_map.1 hw
  exact h g hg

theorem map_width_values {pending : Pending α} (hp : ∀ e ∈ pending.entries, e.2.width = 1) :
    pending.values.map Gate.width = List.replicate pending.values.length 1 :=
  map_width_of_forall fun g hg => by
    obtain ⟨e, he, rfl⟩ := List.mem_map.1 hg
    exact hp e he

theorem map_width_flushFrom [Scalar α] {gates : List (Gate α)}
    (hgates : ∀ g ∈ gates, g.WellFormed) {pending : Pending α}
    (hp : ∀ e ∈ pending.entries, e.2.width = 1) :
    (flushFrom pending gates).map Gate.width =
      List.replicate pending.values.length 1 ++ gates.map Gate.width := by
  induction gates generalizing pending with
  | nil => rw [flushFrom, map_width_values hp, List.map_nil, List.append_nil]
  | cons g gs ih =>
    obtain ⟨hg, hgs⟩ := List.forall_mem_cons.1 hgates
    rw [flushFrom]
    split
    · next hr =>
      have hwidth : g.width = 1 := hg.arity 1 (GateKind.arity_of_isRotation hr)
      have hinsert : ∀ e ∈ (pending.insert (place g) g).entries, e.2.width = 1 := fun e he => by
        rcases SortedMap.mem_entries_insert he with rfl | he
        · exact hwidth
        · exact hp e he
      -- one rotation goes in, and at most one comes out, all of width one
      have hout : ((pending.get? (place g)).toList).map Gate.width =
          List.replicate (pending.get? (place g)).toList.length 1 := map_width_of_forall fun x hx =>
        hp _ (SortedMap.mem_entries_of_get? (Option.mem_toList.1 hx))
      have hlen := pending.length_values_insert (place g) g
      rw [List.map_append, ih hgs hinsert, hout, ← List.append_assoc,
        List.replicate_append_replicate, Nat.add_comm, hlen, List.map_cons, hwidth,
        List.replicate_succ', List.append_assoc]
      rfl
    · have hempty : ∀ e ∈ (.empty : Pending α).entries, e.2.width = 1 := fun e he => by cases he
      rw [List.map_append, List.map_cons, ih hgs hempty, map_width_values hp]
      rfl

/-- Rotations act on one qubit, so the widths of the gates stay in order. -/
theorem map_width_flush [Scalar α] {gates : List (Gate α)} (hgates : ∀ g ∈ gates, g.WellFormed) :
    (flush gates).map Gate.width = gates.map Gate.width :=
  map_width_flushFrom hgates fun _ he => by cases he

end QuantumWorkbench.Simplification
