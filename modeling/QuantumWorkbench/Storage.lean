/-!
# Storage

A table in memory has less than `2⁶³` bytes. Tables whose size is a power of an input, or an input
itself, are checked against this bound before they are made.
-/

namespace QuantumWorkbench.Storage

/-- The first number of bytes that no table has. -/
def limit : Nat := 1 <<< 63

/-- Whether a table of a number of entries of the given size can be stored. -/
def holds (bytes count : Nat) : Bool := bytes * count < limit

/-- Whether a table of bits or characters can be stored. -/
def holdsBytes (count : Nat) : Bool := holds 1 count

/-- Whether a table of scalars can be stored. -/
def holdsScalars (count : Nat) : Bool := holds 8 count

/-- Whether a table of amplitudes, or of pairs of indices, can be stored. -/
def holdsPairs (count : Nat) : Bool := holds 16 count

/-- Whether a table of scored assignments can be stored. -/
def holdsSolutions (count : Nat) : Bool := holds 32 count

end QuantumWorkbench.Storage
