/-!
# Indices in a 64-bit word

Qubits, variables and counts are indices below `2⁶⁴`. Three successors are kept apart: one wraps
around at the end of the range, one stays at the end, and one refuses to leave it.
-/

namespace QuantumWorkbench.Index

/-- The first number that is no index. -/
def limit : Nat := UInt64.size

/-- The index that a count leaves in a word: a count beyond the range wraps around. -/
def wrap (n : Nat) : Nat := n % limit

/-- The next index; the last one is followed by zero. -/
def next (i : Nat) : Nat := wrap (i + 1)

/-- The next index; the last one is followed by itself. -/
def nextClamped (i : Nat) : Nat := min (i + 1) (limit - 1)

/-- The number itself where it is an index. -/
def checked? (n : Nat) : Option Nat := if n < limit then some n else none

/-- The next index, if there is one. -/
def next? (i : Nat) : Option Nat := checked? (i + 1)

/-- The product of two counts, if it is an index. -/
def mul? (a b : Nat) : Option Nat := checked? (a * b)

theorem wrap_le (n : Nat) : wrap n ≤ n := Nat.mod_le n limit

theorem wrap_lt (n : Nat) : wrap n < limit := Nat.mod_lt n (by decide)

theorem wrap_of_lt {n : Nat} (h : n < limit) : wrap n = n := Nat.mod_eq_of_lt h

theorem next_lt (i : Nat) : next i < limit := wrap_lt (i + 1)

theorem next_of_lt {i : Nat} (h : i + 1 < limit) : next i = i + 1 := wrap_of_lt h

end QuantumWorkbench.Index
