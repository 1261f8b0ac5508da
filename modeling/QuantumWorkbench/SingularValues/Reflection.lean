import QuantumWorkbench.Amplitude

/-!
# Reflections of columns

A matrix is a list of columns. A reflection in the plane across a normal keeps all lengths; the
normal is chosen so that a given column turns into a multiple of the first axis. Reflecting the
other columns as well, or the rows by the first row, clears one column or one row of a matrix and
leaves its singular values unchanged.
-/

namespace QuantumWorkbench

/-- A column of a matrix. -/
abbrev Column (α : Type) := List (Amplitude α)

namespace Column

variable {α : Type} [Scalar α]

/-- The number of partial sums of a long inner product. -/
def lanes : Nat := 8

/-- The sum of the entries at one place of each full block. -/
def laneSum (xs : Array (Amplitude α)) (blocks place : Nat) : Amplitude α :=
  Amplitude.sum ((List.range blocks).map fun b => xs.getD (lanes * b + place) 0)

/-- The sum of products: the full blocks of eight by their places, then the rest in order. -/
def sumInLanes (xs : Array (Amplitude α)) : Amplitude α :=
  let blocks := xs.size / lanes
  let full := (List.range (lanes / 2)).foldl (fun acc place =>
    acc + (laneSum xs blocks place + laneSum xs blocks (place + lanes / 2))) 0
  (xs.toList.drop (lanes * blocks)).foldl (· + ·) full

/-- The inner product of two columns, conjugate in the first. -/
def inner (v w : Column α) : Amplitude α :=
  sumInLanes (List.zipWith (fun x y => x.conj * y) v w).toArray

/-- The squared length of a column. -/
def squaredLength (v : Column α) : α := (inner v v).re

/-- A column divided by a scalar. -/
def scaleDown (v : Column α) (x : α) : Column α := v.map fun z => z.scaleDown x

/-- The linear combination of columns with the given weights. -/
def combine : List (Column α × Amplitude α) → Column α
  | [] => []
  | (v, x) :: rest =>
    rest.foldl (fun acc (w, y) => List.zipWith (fun total z => z * y + total) acc w)
      (v.map fun z => z * x)

end Column

/-- The reflection that turns a column into a multiple of the first axis. -/
structure Reflection (α : Type) where
  /-- The multiple: as long as the column, and opposite to the direction of its first entry. -/
  image : Amplitude α
  /-- The normal of the reflection, of length one; none where the column is zero. -/
  normal : Option (Column α)

namespace Reflection

variable {α : Type} [Scalar α]

/-- The reflection for a column. The normal is the difference between the column and its image. It
is scaled to length one twice, since the first time loses digits where it is short. -/
def ofColumn : Column α → Reflection α
  | [] => ⟨0, none⟩
  | first :: rest =>
    let squared := Column.squaredLength (first :: rest)
    let length := Scalar.sqrt squared
    -- the image points away from the first entry, so the difference is not short
    let along := first.direction.scale length
    let spread := (squared + first.magnitude * length) * Scalar.two
    if spread == 0 then ⟨along, none⟩
    else
      let normal := Column.scaleDown ((first + along) :: rest) (Scalar.sqrt spread)
      ⟨-along, some (normal.scaleDown (Scalar.sqrt normal.squaredLength))⟩

/-- The factor by which reflected columns are turned, so that the image becomes positive. -/
def turn (r : Reflection α) : Amplitude α := r.image.direction.conj

/-- A column reflected by a normal and turned. -/
def reflect (turn : Amplitude α) (normal v : Column α) : Column α :=
  let factor := Column.inner normal v * turn.scale (-Scalar.two)
  List.zipWith (fun n z => factor * n + turn * z) normal v

/-- Columns reflected along their rows by a normal and turned. -/
def reflectRows (turn : Amplitude α) (normal : Column α) (columns : List (Column α)) :
    List (Column α) :=
  let twice := turn.scale (-Scalar.two)
  let shadow := Column.combine (columns.zip normal)
  List.zipWith (fun n v =>
    let factor := twice * n.conj
    List.zipWith (fun s z => factor * s + turn * z) shadow v) normal columns

/-- Clears the first column: its length, and the other columns reflected. -/
def clearColumn : List (Column α) → α × List (Column α)
  | [] => (0, [])
  | v :: columns =>
    let r := ofColumn v
    let columns :=
      match r.normal with
      | some normal => columns.map (reflect r.turn normal)
      | none => columns
    (r.image.magnitude, columns)

/-- Clears the first row: its length, and the other rows reflected. -/
def clearRow (columns : List (Column α)) : α × List (Column α) :=
  let r := ofColumn (columns.map fun v => v.headD 0)
  let tails := columns.map List.tail
  let tails :=
    match r.normal with
    | some normal => reflectRows r.turn (normal.map Amplitude.conj) tails
    | none => tails
  (r.image.magnitude, tails)

end Reflection

end QuantumWorkbench
