import QuantumWorkbench.SingularValues.Bidiagonal
import QuantumWorkbench.SingularValues.Rotation

/-!
# Singular values by rotations

Entries beside the diagonal of a bidiagonal matrix shrink under repeated rotations of its rows and
columns, which keep the singular values. What is negligible is set to zero; where it decouples the
matrix, the parts are treated one by one from the lower end, and the last two rows of a part are
solved in closed form.
-/

namespace QuantumWorkbench.Bidiagonal

variable {α : Type} [Scalar α]

/-! ## Negligible entries -/

/-- Entries up to this size, beside those near them, count as zero: `5 · 2⁻⁵²`. -/
def negligible : α := Scalar.unitGap * Scalar.num 5

/-- Whether the entry beside the diagonal is negligible to its two neighbours on it. -/
def decoupled (b : Bidiagonal α) (i : Nat) : Bool :=
  Scalar.abs (b.side i) ≤ negligible * (Scalar.abs (b.main (i + 1)) + Scalar.abs (b.main i))

/-- Whether an entry of the diagonal is negligible. -/
def vanishing (b : Bidiagonal α) (i : Nat) : Bool := Scalar.abs (b.main i) ≤ negligible

/-! ## Rows and columns without a diagonal entry -/

/-- Carries the entry `x` of a cleared row along the row by rotations with the next rows, of which
row `i` holds `y` on the diagonal, until it drops out after `n` of them. -/
def carryAlongRow : Nat → Nat → α → α → Bidiagonal α → Bidiagonal α
  | 0, _, _, _, b => b
  | n + 1, i, x, y, b =>
    match Rotation.clearFirst? x y with
    | none => b
    | some (r, length) =>
      let b := b.setMain i length
      if n = 0 then b
      else
        carryAlongRow n (i + 1) (-r.sine * b.side i) (b.main (i + 1))
          (b.setSide i (b.side i * r.cosine))

/-- Carries the entry `y` of a cleared column up the column by rotations with the columns before
it, of which column `i` holds `x` on the diagonal, until it drops out at the first. -/
def carryUpColumn : Nat → α → α → Bidiagonal α → Bidiagonal α
  | 0, x, y, b =>
    match Rotation.clearSecond? x y with
    | none => b
    | some (_, length) => b.setMain 0 length
  | i + 1, x, y, b =>
    match Rotation.clearSecond? x y with
    | none => b
    | some (r, length) =>
      let b := b.setMain (i + 1) length
      carryUpColumn i (b.main i) (r.sine * b.side i) (b.setSide i (b.side i * r.cosine))

/-- Clears row `i`, whose diagonal entry is zero, with the rows up to the last of its part. -/
def clearRow (b : Bidiagonal α) (i last : Nat) : Bidiagonal α :=
  carryAlongRow (last - i) (i + 1) (b.side i) (b.main (i + 1)) (b.setSide i 0)

/-- Clears the entry beside the diagonal at `i` with the columns before it. -/
def clearColumn (b : Bidiagonal α) (i : Nat) : Bidiagonal α :=
  carryUpColumn i (b.main i) (b.side i) (b.setSide i 0)

/-- Clears the row and the column of a negligible diagonal entry. -/
def clearAt (b : Bidiagonal α) (i last : Nat) : Bidiagonal α :=
  let b := (b.setMain i 0).clearRow i last
  if i = 0 then b else b.clearColumn (i - 1)

/-! ## Parts -/

/-- The last row of the lowest part that is not yet diagonal, at most the given row, or zero. What
is negligible on the way becomes zero. -/
def lastCoupled : Nat → Bidiagonal α → Nat × Bidiagonal α
  | 0, b => (0, b)
  | i + 1, b =>
    if b.side i == 0 || b.decoupled i then lastCoupled i (b.setSide i 0)
    else if b.vanishing i then lastCoupled i (b.clearAt i (i + 1))
    else if b.vanishing (i + 1) then lastCoupled i ((b.setMain (i + 1) 0).clearColumn i)
    else (i + 1, b)

/-- The first row of the part that ends at a row, searched upwards from the given row. -/
def firstCoupled (last : Nat) : Nat → Bidiagonal α → Nat × Bidiagonal α
  | 0, b => (0, b)
  | i + 1, b =>
    if b.decoupled i then (i + 1, b.setSide i 0)
    else if b.vanishing i then (i + 1, b.clearAt i last)
    else firstCoupled last i b

/-- The first and the last row of the lowest part that is not yet diagonal; twice zero where there
is none. -/
def lowestPart (b : Bidiagonal α) (last : Nat) : Nat × Nat × Bidiagonal α :=
  let (last, b) := lastCoupled last b
  let (first, b) := firstCoupled last (last - 1) b
  (first, last, b)

/-! ## Rotations through a part -/

/-- The eigenvalue of a symmetric matrix of side two that is nearer to its lower diagonal entry. -/
def nearerEigenvalue (upper beside lower : α) : α :=
  let squared := beside * beside
  if squared == 0 then lower
  else
    -- the root takes the sign of the gap, so nothing cancels in the sum
    let gap := upper - lower
    let d := gap * (1 / Scalar.two)
    let root := Scalar.sqrt (d * d + squared)
    lower - squared / (d + if 0 ≤ gap then root else -root)

/-- The vector that the first rotation of a step clears: it shifts the squares of the singular
values by an estimate of the lowest. -/
def shifted (b : Bidiagonal α) (first last : Nat) : α × α :=
  let upper := b.main (last - 1)
  let beside := b.side (last - 1)
  let lower := b.main last
  let above := b.side (last - 2)
  let shift := nearerEigenvalue (upper * upper + above * above) (upper * beside)
    (lower * lower + beside * beside)
  (b.main first * b.main first - shift, b.main first * b.side first)

/-- Carries the entry that the first rotation makes off the two diagonals down through a part, row
by row from `i` on, until it drops out after `n` rows. -/
def chase (first : Nat) : Nat → Nat → α × α → Bidiagonal α → Bidiagonal α
  | 0, _, _, b => b
  | n + 1, i, (x, y), b =>
    match Rotation.clearSecond? x y with
    | none => b
    | some (columns, length) =>
      let next := if n = 0 then 0 else b.side (i + 1)
      -- the two columns are rotated, which puts an entry below the diagonal
      let (m00, m01) := columns.applyBack (b.main i) (b.side i)
      let (m10, m11) := columns.applyBack 0 (b.main (i + 1))
      let b := if first < i then b.setSide (i - 1) length else b
      -- the two rows are rotated to clear it, which puts an entry above the side diagonal
      let (rows, m00) := (Rotation.clearSecond? m00 m10).getD (.still, m00)
      let (m01, m11) := rows.apply m01 m11
      let (m02, m12) := rows.apply 0 next
      let b := ((b.setMain i m00).setMain (i + 1) m11).setSide i m01
      let b := if n = 0 then b else b.setSide (i + 1) m12
      chase first n (i + 1) (m01, m02) b

/-- One step of the iteration on a part of at least three rows. -/
def step (b : Bidiagonal α) (first last : Nat) : Bidiagonal α :=
  chase first (last - first) first (b.shifted first last) b

/-- The singular values of the two rows from the given one on, in closed form: half the sum of the
two lengths is the larger, and their product is the product of the diagonal. -/
def solvePair (b : Bidiagonal α) (i : Nat) : Bidiagonal α :=
  let x := b.main i
  let y := b.main (i + 1)
  let sum := Scalar.hypot (x + y) (b.side i) + Scalar.hypot (x - y) (b.side i)
  ((b.setMain i (x * y * Scalar.two / sum)).setMain (i + 1) (1 / Scalar.two * sum)).setSide i 0

/-- Repeats the steps on the lowest part until the matrix is diagonal; the number of steps is
bounded. -/
def settle : Nat → Nat × Nat × Bidiagonal α → Bidiagonal α
  | 0, (_, _, b) => b
  | fuel + 1, (first, last, b) =>
    -- nothing left, two rows left, or a part of at least three rows
    if first = last then b
    else if last = first + 1 then settle fuel ((b.solvePair first).lowestPart (last - 1))
    else settle fuel ((b.step first last).lowestPart last)

/-- The steps for each row at most. A row takes two or three. -/
def stepsPerRow : Nat := 1000

/-- The singular values, in the order of the rows they end at. -/
def singularValues (b : Bidiagonal α) : List α :=
  let rows := b.diagonal.size
  let b := settle (stepsPerRow * rows) (b.lowestPart (rows - 1))
  b.diagonal.toList.map Scalar.abs

end QuantumWorkbench.Bidiagonal
