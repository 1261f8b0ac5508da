import QuantumWorkbench.Gate.Adjoint
import QuantumWorkbench.Gate.Commutation

/-!
# Cancelling inverse pairs

From each gate a window of the following gates is searched for its inverse; the search ends at the
first gate that does not commute with it. A pair that is found is removed, and the search goes on
from the same position.
-/

namespace QuantumWorkbench.Simplification

variable {α : Type} [Scalar α]

/-- The window unless another is chosen. -/
def defaultLookahead : Nat := 4

/-- The number of gates searched after a position. The end of the window is a 64-bit index; a window
that reaches beyond the range is empty. -/
def reach (lookahead position : Nat) : Nat :=
  Index.wrap (position + 1 + lookahead) - (position + 1)

/-- The distance to the first inverse of a gate among the gates after it, as long as those between
commute with it. -/
def partnerIn (g : Gate α) : List (Gate α) → Option Nat
  | [] => none
  | h :: hs =>
    if g.isInverseOf h then some 0
    else if g.commutes h then (partnerIn g hs).map (· + 1)
    else none

/-- The position of the partner of the gate at a position: its first inverse in the window. -/
def findPartner (lookahead : Nat) (gates : List (Gate α)) (position : Nat) : Option Nat :=
  match gates.drop position with
  | [] => none
  | g :: gs => (partnerIn g (gs.take (reach lookahead position))).map (· + position + 1)

theorem partnerIn_lt {g : Gate α} {gs : List (Gate α)} {k : Nat} (h : partnerIn g gs = some k) :
    k < gs.length := by
  induction gs generalizing k with
  | nil => simp [partnerIn] at h
  | cons h' hs ih =>
    unfold partnerIn at h
    split at h
    · cases h; simp
    · split at h
      · obtain ⟨k', hk', rfl⟩ := Option.map_eq_some_iff.1 h
        simp [ih hk']
      · cases h

/-- Cancels pairs in the gates from a position on. -/
def cancelFrom (lookahead position : Nat) (gates : List (Gate α)) : List (Gate α) :=
  match gates with
  | [] => []
  | g :: gs =>
    match partnerIn g (gs.take (reach lookahead position)) with
    | some k => cancelFrom lookahead position (gs.eraseIdx k)
    | none => g :: cancelFrom lookahead (position + 1) gs
  termination_by gates.length
  decreasing_by
    · have := List.length_eraseIdx_le gs k
      simp only [List.length_cons]
      omega
    · simp

/-- Cancels pairs in a list of gates. -/
def cancelInverses (lookahead : Nat) (gates : List (Gate α)) : List (Gate α) :=
  cancelFrom lookahead 0 gates

end QuantumWorkbench.Simplification
