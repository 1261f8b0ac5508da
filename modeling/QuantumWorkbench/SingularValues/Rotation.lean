import QuantumWorkbench.Scalar.Basic

/-!
# Rotations of the plane

A rotation is given by its cosine and sine. It is found from a vector of which it clears one
component; the other then holds the length, with the sign it had.
-/

namespace QuantumWorkbench

/-- A rotation of the plane. -/
structure Rotation (α : Type) where
  cosine : α
  sine : α

namespace Rotation

variable {α : Type} [Scalar α]

/-- The rotation that changes nothing. -/
def still : Rotation α := ⟨1, 0⟩

/-- The length of the vector, with the sign of its component `x`. -/
def signedLength (x y : α) : α :=
  let length := Scalar.sqrt (x * x + y * y)
  if 0 ≤ x then length else -length

/-- The cosine of the angle between the vector and the axis of its component `x`. -/
def cosineFor (x y : α) : α := Scalar.abs x / Scalar.sqrt (x * x + y * y)

/-- The rotation that clears the second component, and the first component it leaves; none where
there is nothing to clear. -/
def clearSecond? (x y : α) : Option (Rotation α × α) :=
  if y == 0 then none
  else
    let length := signedLength x y
    some (⟨cosineFor x y, -y / length⟩, length)

/-- The rotation that clears the first component, and the second component it leaves; none where
there is nothing to clear. -/
def clearFirst? (x y : α) : Option (Rotation α × α) :=
  if x == 0 then none
  else
    let length := signedLength y x
    some (⟨cosineFor y x, x / length⟩, length)

/-- The rotation applied to a vector. -/
def apply (r : Rotation α) (x y : α) : α × α :=
  (x * r.cosine - r.sine * y, r.sine * x + y * r.cosine)

/-- The opposite rotation applied to a vector. -/
def applyBack (r : Rotation α) (x y : α) : α × α :=
  let sine := -r.sine
  (x * r.cosine + sine * y, -sine * x + y * r.cosine)

end Rotation

end QuantumWorkbench
