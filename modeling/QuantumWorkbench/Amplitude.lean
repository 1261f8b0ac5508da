import QuantumWorkbench.Scalar.Basic

/-!
# Amplitudes

Complex numbers over a class of scalars: the entries of state vectors and gate matrices.
-/

namespace QuantumWorkbench

/-- A complex number by its real and imaginary part. -/
structure Amplitude (α : Type) where
  re : α
  im : α
  deriving BEq, DecidableEq

namespace Amplitude

variable {α : Type} [Scalar α]

instance : Zero (Amplitude α) := ⟨⟨0, 0⟩⟩

instance : One (Amplitude α) := ⟨⟨1, 0⟩⟩

instance : Add (Amplitude α) := ⟨fun a b => ⟨a.re + b.re, a.im + b.im⟩⟩

instance : Sub (Amplitude α) := ⟨fun a b => ⟨a.re - b.re, a.im - b.im⟩⟩

instance : Neg (Amplitude α) := ⟨fun a => ⟨-a.re, -a.im⟩⟩

instance : Mul (Amplitude α) :=
  ⟨fun a b => ⟨a.re * b.re - a.im * b.im, a.re * b.im + a.im * b.re⟩⟩

instance : Inhabited (Amplitude α) := ⟨0⟩

/-- The imaginary unit. -/
def i : Amplitude α := ⟨0, 1⟩

/-- A scalar as a complex number. -/
def real (x : α) : Amplitude α := ⟨x, 0⟩

/-- The point of the unit circle at an angle. -/
def unit (angle : α) : Amplitude α := ⟨Scalar.cos angle, Scalar.sin angle⟩

/-- The complex conjugate. -/
def conj (a : Amplitude α) : Amplitude α := ⟨a.re, -a.im⟩

/-- Both parts times a scalar. -/
def scale (a : Amplitude α) (x : α) : Amplitude α := ⟨a.re * x, a.im * x⟩

/-- Both parts divided by a scalar. -/
def scaleDown (a : Amplitude α) (x : α) : Amplitude α := ⟨a.re / x, a.im / x⟩

/-- The absolute value. -/
def magnitude (a : Amplitude α) : α := Scalar.hypot a.re a.im

/-- The number of absolute value one in the same direction; one where there is no direction. -/
def direction (a : Amplitude α) : Amplitude α :=
  let size := a.magnitude
  if size == 0 then 1 else a.scaleDown size

/-- The sum of the absolute values of both parts. -/
def extent (a : Amplitude α) : α := Scalar.abs a.re + Scalar.abs a.im

/-- The angle from the positive real axis. -/
def phase (a : Amplitude α) : α := Scalar.angle a.im a.re

/-- The squared absolute value: the weight of the outcome that carries the amplitude. -/
def probability (a : Amplitude α) : α := a.re * a.re + a.im * a.im

/-- Both parts differ by less than a tolerance. -/
def closeTo (a b : Amplitude α) (tolerance : α) : Bool :=
  decide (Scalar.abs (a.re - b.re) < tolerance) && decide (Scalar.abs (a.im - b.im) < tolerance)

/-- The sum of a list from front to back. -/
def sum (zs : List (Amplitude α)) : Amplitude α := zs.foldl (· + ·) 0

end Amplitude

end QuantumWorkbench
