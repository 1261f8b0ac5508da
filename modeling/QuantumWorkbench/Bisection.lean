/-!
# Bisection

Finding where a condition stops to hold by halving the range that it stops in. Where the condition
holds up to some position and nowhere after, that position is found.
-/

namespace QuantumWorkbench.Bisection

/-- The position between two others where a condition stops to hold. -/
@[specialize] def boundary (p : Nat → Bool) (lo hi : Nat) : Nat :=
  if lo < hi then
    let mid := (lo + hi) / 2
    if p mid then boundary p (mid + 1) hi else boundary p lo mid
  else lo
termination_by hi - lo

/-- A condition that holds below a position and fails from there on stops at that position. -/
theorem boundary_eq {p : Nat → Bool} {lo hi n : Nat} (hlo : lo ≤ n) (hhi : n ≤ hi)
    (hp : ∀ k, lo ≤ k → k < hi → (p k ↔ k < n)) : boundary p lo hi = n := by
  fun_induction boundary p lo hi with
  | case1 lo hi hlt mid hmid ih =>
    -- the position lies in the upper half
    have hn := (hp mid (by omega) (by omega)).1 hmid
    exact ih (by omega) hhi fun k hk => hp k (by omega)
  | case2 lo hi hlt mid hmid ih =>
    -- the position lies in the lower half, the middle included
    have hn : ¬ mid < n := fun h => hmid ((hp mid (by omega) (by omega)).2 h)
    exact ih hlo (by omega) fun k hk hk' => hp k hk (by omega)
  | case3 lo hi hlt => omega

end QuantumWorkbench.Bisection
