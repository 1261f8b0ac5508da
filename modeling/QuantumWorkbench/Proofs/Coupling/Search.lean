import Mathlib
import QuantumWorkbench.Coupling.Path
import QuantumWorkbench.Proofs.SortedMap

/-!
# Breadth-first search

The trails that wait in a search are shortest walks in the order of their lengths, and a qubit that
has been left has all its neighbours seen. So a walk that leaves the qubits seen is longer than the
first trail, and the search finds a walk to the goal exactly where there is one, with the fewest
steps. This holds of every graph: edges may be stored in one direction only, or lead from a qubit to
itself.
-/

namespace QuantumWorkbench.CouplingGraph

variable {g : CouplingGraph} {start goal : ℕ}

/-! ## Walks -/

/-- A walk along stored edges, by the qubits that it visits. -/
structure IsWalk (g : CouplingGraph) (start goal : ℕ) (path : List ℕ) : Prop where
  edges : path.IsChain fun a b => g.connects a b = true
  origin : path.head? = some start
  target : path.getLast? = some goal

/-- A walk that visits no qubit twice and has the fewest steps. -/
structure IsShortest (g : CouplingGraph) (start goal : ℕ) (path : List ℕ) : Prop where
  walk : g.IsWalk start goal path
  nodup : path.Nodup
  least : ∀ other, g.IsWalk start goal other → path.length ≤ other.length

/-! ## Trails -/

/-- A trail is a walk from the start; its latest qubit comes first. -/
structure Walked (g : CouplingGraph) (start : Nat) (trail : Trail) : Prop where
  edges : (trail.1 :: trail.2).IsChain fun later earlier => g.connects earlier later = true
  origin : (trail.1 :: trail.2).getLast? = some start

theorem walked_start (g : CouplingGraph) (start : Nat) : g.Walked start (start, []) :=
  ⟨.singleton start, rfl⟩

theorem Walked.extend {trail : Trail} (h : g.Walked start trail) {q : Nat}
    (hq : q ∈ g.neighbors trail.1) : g.Walked start (trail.extend q) := by
  refine ⟨List.isChain_cons_cons.2 ⟨List.contains_iff_mem.2 hq, h.edges⟩, ?_⟩
  -- the first qubit of the trail is its last entry
  show (q :: trail.1 :: trail.2).getLast? = some start
  rw [List.getLast?_cons_cons, h.origin]

/-- A walk is one step longer than the walk before its latest step. -/
theorem Walked.before {q p : ℕ} {history : List ℕ} (h : g.Walked start (q, p :: history)) :
    g.connects p q = true ∧ g.Walked start (p, history) := by
  obtain ⟨hedge, hedges⟩ := List.isChain_cons_cons.1 h.edges
  exact ⟨hedge, hedges, List.getLast?_cons_cons ▸ h.origin⟩

/-- A trail is a walk to its latest qubit, kept backwards. -/
theorem walked_iff {trail : Trail} : g.Walked start trail ↔ g.IsWalk start trail.1 trail.path := by
  have hreverse : trail.path.reverse = trail.1 :: trail.2 := List.reverse_reverse _
  constructor
  · intro h
    refine ⟨List.isChain_reverse.2 h.edges, ?_, ?_⟩
    · rw [Trail.path, List.head?_reverse, h.origin]
    · rw [Trail.path, List.getLast?_reverse, List.head?_cons]
  · intro h
    refine ⟨?_, ?_⟩
    · rw [← hreverse]
      exact List.isChain_reverse.2 h.edges
    · rw [← hreverse, List.getLast?_reverse, h.origin]

theorem IsWalk.exists_trail {path : List ℕ} (h : g.IsWalk start goal path) :
    ∃ trail : Trail, trail.1 = goal ∧ trail.path = path ∧ g.Walked start trail := by
  obtain ⟨history, hhistory⟩ := List.head?_eq_some_iff.1 (List.head?_reverse.trans h.target)
  have hpath : (goal :: history).reverse = path := by rw [← hhistory, List.reverse_reverse]
  refine ⟨(goal, history), rfl, hpath, walked_iff.2 ?_⟩
  rwa [Trail.path, hpath]

theorem length_path (trail : Trail) : trail.path.length = trail.2.length + 1 :=
  List.length_reverse

/-- A qubit can be reached exactly where a trail ends at it. -/
theorem reflTransGen_iff_walked :
    Relation.ReflTransGen (fun a b => g.connects a b = true) start goal ↔
      ∃ trail : Trail, trail.1 = goal ∧ g.Walked start trail := by
  constructor
  · intro h
    induction h with
    | refl => exact ⟨(start, []), rfl, g.walked_start start⟩
    | tail _ hedge ih =>
      obtain ⟨trail, rfl, hwalked⟩ := ih
      exact ⟨trail.extend _, rfl, hwalked.extend (List.contains_iff_mem.1 hedge)⟩
  · rintro ⟨⟨q, history⟩, rfl, hwalked⟩
    induction history generalizing q with
    | nil =>
      cases hwalked.origin
      exact .refl
    | cons p history ih =>
      obtain ⟨hedge, hbefore⟩ := hwalked.before
      exact .tail (ih p hbefore) hedge

/-- A walk that ends outside a set of qubits leaves it by an edge. -/
theorem Walked.exists_exit {seen : List ℕ} {trail : Trail} (h : g.Walked start trail)
    (hstart : start ∈ seen) (hend : trail.1 ∉ seen) :
    ∃ before : Trail, g.Walked start before ∧ before.1 ∈ seen ∧
      before.2.length < trail.2.length ∧ ∃ q ∈ g.neighbors before.1, q ∉ seen := by
  obtain ⟨q, history⟩ := trail
  induction history generalizing q with
  | nil =>
    cases h.origin
    exact absurd hstart hend
  | cons p history ih =>
    obtain ⟨hedge, hbefore⟩ := h.before
    by_cases hp : p ∈ seen
    · exact ⟨(p, history), hbefore, hp, Nat.lt_succ_self _, q, List.contains_iff_mem.1 hedge, hend⟩
    · obtain ⟨before, hwalked, hseen, hlt, hexit⟩ := ih p hbefore hp
      exact ⟨before, hwalked, hseen, Nat.lt_succ_of_lt hlt, hexit⟩

/-! ## What has been explored -/

/-- A trail that visits no qubit twice and than which none is shorter. -/
structure Nearest (g : CouplingGraph) (start : ℕ) (trail : Trail) : Prop where
  walked : g.Walked start trail
  nodup : (trail.1 :: trail.2).Nodup
  least : ∀ other : Trail, g.Walked start other → other.1 = trail.1 →
    trail.2.length ≤ other.2.length

theorem Nearest.isShortest {trail : Trail} (h : g.Nearest start trail) :
    g.IsShortest start trail.1 trail.path := by
  refine ⟨walked_iff.1 h.walked, List.nodup_reverse.2 h.nodup, fun other hother => ?_⟩
  obtain ⟨trail', hend, rfl, hwalked⟩ := hother.exists_trail
  rw [length_path, length_path]
  exact Nat.succ_le_succ (h.least trail' hwalked hend)

/-- The state of a search: the waiting trails are shortest, in the order of their lengths, which
differ by one at most; the qubits seen have been left without finding the goal, and with all their
neighbours seen, or end a waiting trail. -/
structure Explored (g : CouplingGraph) (start goal : ℕ) (seen : List ℕ) (waiting : List Trail) :
    Prop where
  origin : start ∈ seen
  nearest : ∀ t ∈ waiting, g.Nearest start t
  visited : ∀ t ∈ waiting, ∀ q ∈ t.1 :: t.2, q ∈ seen
  ascending : waiting.Pairwise fun t t' => t.2.length ≤ t'.2.length
  level : ∀ t ∈ waiting, ∀ t' ∈ waiting, t'.2.length ≤ t.2.length + 1
  closed : ∀ q ∈ seen, (∃ t ∈ waiting, t.1 = q) ∨ (q ≠ goal ∧ ∀ p ∈ g.neighbors q, p ∈ seen)

theorem explored_start (g : CouplingGraph) (start goal : ℕ) :
    g.Explored start goal [start] [(start, [])] where
  origin := List.mem_singleton_self start
  nearest := List.forall_mem_singleton.2
    ⟨g.walked_start start, List.nodup_singleton start, fun _ _ _ => Nat.zero_le _⟩
  visited := List.forall_mem_singleton.2 fun _ hq => hq
  ascending := List.pairwise_singleton _ _
  level := List.forall_mem_singleton.2 (List.forall_mem_singleton.2 (Nat.zero_le _))
  closed := List.forall_mem_singleton.2 (Or.inl ⟨_, List.mem_singleton_self _, rfl⟩)

namespace Explored

variable {seen : List ℕ} {trail : Trail} {waiting : List Trail}

/-- Nothing outside the qubits seen is as near as the first trail. -/
theorem lt_of_not_mem (h : g.Explored start goal seen (trail :: waiting)) {other : Trail}
    (hother : g.Walked start other) (hend : other.1 ∉ seen) :
    trail.2.length < other.2.length := by
  obtain ⟨before, hwalked, hseen, hlt, q, hq, hout⟩ := hother.exists_exit h.origin hend
  rcases h.closed before.1 hseen with ⟨t, ht, htend⟩ | ⟨-, hneighbors⟩
  · -- the walk leaves the qubits seen at the end of a waiting trail
    have hleast := (h.nearest t ht).least before hwalked htend.symm
    have hfirst : trail.2.length ≤ t.2.length := by
      rcases List.mem_cons.1 ht with rfl | ht
      · exact le_rfl
      · exact (List.pairwise_cons.1 h.ascending).1 t ht
    omega
  · exact absurd (hneighbors q hq) hout

/-- Where no trail waits, every walk has been followed without finding the goal. -/
theorem ne_goal (h : g.Explored start goal seen []) {other : Trail}
    (hother : g.Walked start other) : other.1 ≠ goal := by
  have hclosed (q : ℕ) (hq : q ∈ seen) : q ≠ goal ∧ ∀ p ∈ g.neighbors q, p ∈ seen :=
    (h.closed q hq).resolve_left fun ⟨_, ht, _⟩ => List.not_mem_nil ht
  refine (hclosed other.1 (by_contra fun hend => ?_)).1
  obtain ⟨before, -, hseen, -, q, hq, hout⟩ := hother.exists_exit h.origin hend
  exact hout ((hclosed before.1 hseen).2 q hq)

theorem nearest_of_mem_extensions (h : g.Explored start goal seen (trail :: waiting))
    {t : Trail} (ht : t ∈ g.extensions seen trail) :
    g.Nearest start t ∧ t.2.length = trail.2.length + 1 ∧ t.1 ∉ seen ∧
      ∀ q ∈ t.2, q ∈ seen := by
  obtain ⟨q, hq, rfl⟩ := List.mem_map.1 ht
  obtain ⟨hneighbor, hnew⟩ := List.mem_filter.1 hq
  have hnew : q ∉ seen := by simpa using hnew
  have hvisited := h.visited trail List.mem_cons_self
  have hnearest := h.nearest trail List.mem_cons_self
  refine ⟨⟨hnearest.walked.extend hneighbor, ?_, ?_⟩, rfl, hnew, hvisited⟩
  · exact List.nodup_cons.2 ⟨fun hmem => hnew (hvisited q hmem), hnearest.nodup⟩
  · intro other hother hend
    exact h.lt_of_not_mem hother (hend ▸ hnew)

/-- **The step** of the search: the first trail is left, and its extensions wait behind the
others. -/
theorem step (h : g.Explored start goal seen (trail :: waiting)) (hgoal : trail.1 ≠ goal) :
    g.Explored start goal (seen ++ (g.extensions seen trail).map Prod.fst)
      (waiting ++ g.extensions seen trail) := by
  have hnew {t : Trail} (ht : t ∈ g.extensions seen trail) := h.nearest_of_mem_extensions ht
  -- old trails are as long as the first or one longer, new ones are one longer
  have hbounds : ∀ t ∈ waiting ++ g.extensions seen trail,
      trail.2.length ≤ t.2.length ∧ t.2.length ≤ trail.2.length + 1 := by
    refine List.forall_mem_append.2 ⟨fun t ht => ⟨?_, ?_⟩, fun t ht => ?_⟩
    · exact (List.pairwise_cons.1 h.ascending).1 t ht
    · exact h.level trail List.mem_cons_self t (List.mem_cons_of_mem _ ht)
    · have hlength := (hnew ht).2.1
      omega
  refine ⟨List.mem_append_left _ h.origin, ?nearest, ?visited, ?ascending, ?level, ?closed⟩
  case nearest =>
    exact List.forall_mem_append.2
      ⟨fun t ht => h.nearest t (List.mem_cons_of_mem _ ht), fun t ht => (hnew ht).1⟩
  case visited =>
    refine List.forall_mem_append.2
      ⟨fun t ht q hq => ?_, fun t ht => List.forall_mem_cons.2 ⟨?_, ?_⟩⟩
    · exact List.mem_append_left _ (h.visited t (List.mem_cons_of_mem _ ht) q hq)
    · exact List.mem_append_right _ (List.mem_map_of_mem ht)
    · exact fun q hq => List.mem_append_left _ ((hnew ht).2.2.2 q hq)
  case ascending =>
    refine List.pairwise_append.2 ⟨(List.pairwise_cons.1 h.ascending).2, ?_, fun t ht t' ht' => ?_⟩
    · exact List.pairwise_of_forall_mem_list fun t ht t' ht' =>
        ((hnew ht).2.1.trans (hnew ht').2.1.symm).le
    · have hold := (hbounds t (List.mem_append_left _ ht)).2
      have hlength := (hnew ht').2.1
      omega
  case level =>
    intro t ht t' ht'
    have hlow := (hbounds t ht).1
    have hhigh := (hbounds t' ht').2
    omega
  case closed =>
    refine List.forall_mem_append.2 ⟨fun q hq => ?_, fun q hq => ?_⟩
    · rcases h.closed q hq with ⟨t, ht, rfl⟩ | ⟨hne, hneighbors⟩
      · rcases List.mem_cons.1 ht with rfl | ht
        · -- the qubit that is left: a neighbour was seen before, or is seen now
          refine Or.inr ⟨hgoal, fun p hp => List.mem_append.2 ?_⟩
          by_cases hseen : p ∈ seen
          · exact Or.inl hseen
          · refine Or.inr (List.mem_map.2 ⟨t.extend p, List.mem_map_of_mem ?_, rfl⟩)
            exact List.mem_filter.2 ⟨hp, by simpa using hseen⟩
        · exact Or.inl ⟨t, List.mem_append_left _ ht, rfl⟩
      · exact Or.inr ⟨hne, fun p hp => List.mem_append_left _ (hneighbors p hp)⟩
    · obtain ⟨t, ht, rfl⟩ := List.mem_map.1 hq
      exact Or.inl ⟨t, List.mem_append_right _ ht, rfl⟩

end Explored

/-! ## What is left to see -/

/-- The stored neighbours that have not been seen. -/
def unseen (g : CouplingGraph) (seen : List ℕ) : Finset ℕ :=
  (g.adjacency.values.flatMap SortedMap.keys).toFinset \ seen.toFinset

theorem mem_stored {q p : ℕ} (h : p ∈ g.neighbors q) :
    p ∈ g.adjacency.values.flatMap SortedMap.keys := by
  unfold neighbors at h
  split at h
  · next set hset =>
    have hentry := SortedMap.mem_entries_of_get? hset
    exact List.mem_flatMap.2 ⟨set, List.mem_map.2 ⟨_, hentry, rfl⟩, h⟩
  · cases h

theorem nodup_neighbors (g : CouplingGraph) (q : ℕ) : (g.neighbors q).Nodup := by
  unfold neighbors
  split
  · next set _ => exact set.nodup_keys
  · exact List.nodup_nil

/-- What a step sees is no longer left to see. -/
theorem card_unseen_step (g : CouplingGraph) (seen : List ℕ) (trail : Trail) :
    (g.unseen (seen ++ (g.extensions seen trail).map Prod.fst)).card +
      (g.extensions seen trail).length = (g.unseen seen).card := by
  have hfirst : (g.extensions seen trail).map Prod.fst =
      (g.neighbors trail.1).filter fun q => !seen.contains q := by
    rw [extensions, List.map_map]
    exact List.map_id _
  -- what a step extends to was not seen before, and each of it is counted once
  have hsub : ((g.extensions seen trail).map Prod.fst).toFinset ⊆ g.unseen seen := by
    intro q hq
    rw [hfirst, List.mem_toFinset, List.mem_filter] at hq
    exact Finset.mem_sdiff.2 ⟨List.mem_toFinset.2 (mem_stored hq.1), by simpa using hq.2⟩
  have hcard : ((g.extensions seen trail).map Prod.fst).toFinset.card =
      (g.extensions seen trail).length := by
    rw [List.toFinset_card_of_nodup, List.length_map]
    rw [hfirst]
    exact (g.nodup_neighbors trail.1).filter _
  have hrest : g.unseen (seen ++ (g.extensions seen trail).map Prod.fst) =
      g.unseen seen \ ((g.extensions seen trail).map Prod.fst).toFinset := by
    rw [unseen, unseen, List.toFinset_append]
    exact sdiff_sdiff_left.symm
  rw [hrest, ← hcard, Finset.card_sdiff_add_card_eq_card hsub]

theorem card_unseen_le (g : CouplingGraph) (seen : List ℕ) :
    (g.unseen seen).card ≤ g.storedNeighbors := by
  refine (Finset.card_le_card Finset.sdiff_subset).trans ((List.toFinset_card_le _).trans ?_)
  rw [storedNeighbors, List.length_flatMap, ← List.sum_eq_foldl]
  have hsize (set : SortedSet ℕ) : set.keys.length = set.size := List.length_map _
  simp only [hsize, le_refl]

/-! ## What is found -/

/-- **A path that is found** is a shortest walk. -/
theorem search_eq_some_isShortest {fuel : ℕ} {seen path : List ℕ} {waiting : List Trail}
    (h : g.Explored start goal seen waiting)
    (hfound : g.search goal fuel seen waiting = some path) :
    g.IsShortest start goal path := by
  induction fuel generalizing seen waiting with
  | zero => cases hfound
  | succ fuel ih =>
    cases waiting with
    | nil => cases hfound
    | cons trail waiting =>
      rw [search] at hfound
      split at hfound
      · next hgoal =>
        cases hfound
        exact hgoal ▸ (h.nearest trail List.mem_cons_self).isShortest
      · next hgoal => exact ih (h.step hgoal) hfound

/-- **Where nothing is found** no walk leads to the goal, if there was fuel for every trail that
waits or is still to come. -/
theorem search_eq_none {fuel : ℕ} {seen : List ℕ} {waiting : List Trail}
    (h : g.Explored start goal seen waiting)
    (hfuel : waiting.length + (g.unseen seen).card ≤ fuel)
    (hnone : g.search goal fuel seen waiting = none) {other : Trail}
    (hother : g.Walked start other) : other.1 ≠ goal := by
  induction fuel generalizing seen waiting with
  | zero =>
    obtain rfl : waiting = [] := List.eq_nil_of_length_eq_zero (by omega)
    exact h.ne_goal hother
  | succ fuel ih =>
    cases waiting with
    | nil => exact h.ne_goal hother
    | cons trail waiting =>
      rw [search] at hnone
      split at hnone
      · cases hnone
      · next hgoal =>
        -- one trail is left, and every trail that joins was still to come
        refine ih (h.step hgoal) ?_ hnone
        have hcard := g.card_unseen_step seen trail
        rw [List.length_cons] at hfuel
        rw [List.length_append]
        omega

/-- More fuel changes nothing once a path is found. -/
theorem search_eq_some_of_le {fuel fuel' : ℕ} (hle : fuel ≤ fuel') {seen path : List ℕ}
    {waiting : List Trail} (h : g.search goal fuel seen waiting = some path) :
    g.search goal fuel' seen waiting = some path := by
  induction fuel generalizing fuel' seen waiting with
  | zero => cases h
  | succ fuel ih =>
    obtain ⟨fuel', rfl⟩ : ∃ n, fuel' = n + 1 := ⟨fuel' - 1, by omega⟩
    cases waiting with
    | nil => cases h
    | cons trail waiting =>
      rw [search] at h ⊢
      split
      · next hgoal => rwa [if_pos hgoal] at h
      · next hgoal =>
        rw [if_neg hgoal] at h
        exact ih (Nat.le_of_succ_le_succ hle) h

theorem isShortest_of_shortestPath {path : List ℕ} (h : g.shortestPath start goal = some path) :
    g.IsShortest start goal path := by
  rw [shortestPath_eq_search] at h
  exact search_eq_some_isShortest (g.explored_start start goal) h

theorem search_eq_none_of_lt {fuel : ℕ} (hfuel : g.storedNeighbors < fuel)
    (h : g.search goal fuel [start] [(start, [])] = none) {other : Trail}
    (hother : g.Walked start other) : other.1 ≠ goal := by
  refine search_eq_none (g.explored_start start goal) ?_ h hother
  have hcard := g.card_unseen_le [start]
  rw [List.length_singleton]
  omega

/-- **A path is found** exactly where the goal can be reached. -/
theorem shortestPath_isSome_iff :
    (g.shortestPath start goal).isSome = true ↔
      Relation.ReflTransGen (fun a b => g.connects a b = true) start goal := by
  rw [reflTransGen_iff_walked]
  constructor
  · intro h
    obtain ⟨path, hpath⟩ := Option.isSome_iff_exists.1 h
    obtain ⟨trail, hend, -, hwalked⟩ := (isShortest_of_shortestPath hpath).walk.exists_trail
    exact ⟨trail, hend, hwalked⟩
  · rintro ⟨trail, hend, hwalked⟩
    refine Option.isSome_iff_ne_none.2 fun hnone => ?_
    rw [shortestPath_eq_search] at hnone
    exact search_eq_none_of_lt (Nat.lt_succ_self _) hnone hwalked hend

/-- The search ends by itself: with fuel for the start and every stored neighbour, more fuel changes
nothing. -/
theorem searchBy_eq_shortestPath {fuel : ℕ} (hfuel : g.storedNeighbors < fuel) :
    searchBy g.table goal fuel {start} ⟨[(start, [])], []⟩ = g.shortestPath start goal := by
  rw [shortestPath_eq_search, searchBy_start]
  cases h : g.search goal (g.storedNeighbors + 1) [start] [(start, [])] with
  | some path => exact search_eq_some_of_le hfuel h
  | none =>
    refine Option.eq_none_iff_forall_ne_some.2 fun path hpath => ?_
    obtain ⟨trail, hend, -, hwalked⟩ :=
      (search_eq_some_isShortest (g.explored_start start goal) hpath).walk.exists_trail
    exact search_eq_none_of_lt (Nat.lt_succ_self _) h hwalked hend

/-- **Shortest paths.** On every graph the search ends by itself, and finds a path exactly where the
goal can be reached along stored edges; the path goes from the start to the goal along stored edges,
visits no qubit twice, and has the fewest steps. -/
theorem shortestPath_finds_fewest (g : CouplingGraph) (start goal : ℕ) :
    (∀ fuel, g.storedNeighbors < fuel →
      searchBy g.table goal fuel {start} ⟨[(start, [])], []⟩ = g.shortestPath start goal) ∧
    ((g.shortestPath start goal).isSome = true ↔
      Relation.ReflTransGen (fun a b => g.connects a b = true) start goal) ∧
    ∀ path, g.shortestPath start goal = some path →
      path.head? = some start ∧ path.getLast? = some goal ∧ path.Nodup ∧
      path.IsChain (fun a b => g.connects a b = true) ∧
      ∀ walk : List ℕ, walk.IsChain (fun a b => g.connects a b = true) →
        walk.head? = some start → walk.getLast? = some goal → path.length ≤ walk.length := by
  refine ⟨fun fuel hfuel => searchBy_eq_shortestPath hfuel, shortestPath_isSome_iff,
    fun path hpath => ?_⟩
  obtain ⟨hwalk, hnodup, hleast⟩ := isShortest_of_shortestPath hpath
  exact ⟨hwalk.origin, hwalk.target, hnodup, hwalk.edges,
    fun walk hedges horigin htarget => hleast walk ⟨hedges, horigin, htarget⟩⟩

/-- Edges stored in one direction only, and one from a qubit to itself. -/
def oneWay : CouplingGraph :=
  ⟨5, [(0, 0), (0, 1), (0, 2), (1, 3), (2, 3), (3, 4)].foldl (fun m e => link m e.1 e.2) .empty⟩

theorem shortestPath_oneWay : oneWay.shortestPath 0 4 = some [0, 1, 3, 4] := by
  rw [shortestPath_eq_search]
  decide

theorem shortestPath_finds_fewest_oneWay :
    (oneWay.storedNeighbors < 7 ∧
      searchBy oneWay.table 4 7 {0} ⟨[(0, [])], []⟩ = oneWay.shortestPath 0 4) ∧
    oneWay.shortestPath 0 4 = some [0, 1, 3, 4] ∧ [0, 1, 3, 4].Nodup ∧
    (∀ walk : List ℕ, walk.IsChain (fun a b => oneWay.connects a b = true) →
      walk.head? = some 0 → walk.getLast? = some 4 → [0, 1, 3, 4].length ≤ walk.length) ∧
    ¬ Relation.ReflTransGen (fun a b => oneWay.connects a b = true) 4 0 := by
  obtain ⟨hends, -, hpath⟩ := shortestPath_finds_fewest oneWay 0 4
  obtain ⟨-, -, hnodup, -, hleast⟩ := hpath _ shortestPath_oneWay
  obtain ⟨-, hreached, -⟩ := shortestPath_finds_fewest oneWay 4 0
  refine ⟨⟨by decide, hends 7 (by decide)⟩, shortestPath_oneWay, hnodup, hleast, fun hback => ?_⟩
  have hnone : oneWay.shortestPath 4 0 = none := by
    rw [shortestPath_eq_search]
    decide
  have hsome := hreached.2 hback
  rw [hnone] at hsome
  cases hsome

end QuantumWorkbench.CouplingGraph
