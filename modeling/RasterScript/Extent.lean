import RasterScript.Number.Words

/-! Rectangles of pixels. Each operation that adds or subtracts coordinates comes twice: with exact
results, and in machine words. -/
namespace RasterScript

/-- `width` times `height` pixels from the corner `(minX, minY)` on. -/
structure Extent where
  minX : Int
  minY : Int
  width : Nat
  height : Nat
deriving DecidableEq, Repr

namespace Extent

def sized (width height : Nat) : Extent := ⟨0, 0, width, height⟩

def maxX (e : Extent) : Int := e.minX + e.width - 1

def maxY (e : Extent) : Int := e.minY + e.height - 1

def contains (e : Extent) (x y : Int) : Bool :=
  e.minX ≤ x && x ≤ e.maxX && e.minY ≤ y && y ≤ e.maxY

def pixelCount (e : Extent) : Nat := e.width * e.height

def isEmpty (e : Extent) : Bool := e.width = 0 || e.height = 0

/-- All pixels, row by row, each row from left to right. -/
def positions (e : Extent) : List (Int × Int) :=
  (List.range e.height).flatMap fun (row : Nat) =>
    (List.range e.width).map fun (column : Nat) => (e.minX + column, e.minY + row)

theorem length_positions (e : Extent) : e.positions.length = e.pixelCount := by
  have row_length :
      (List.map (fun _ => e.width) (List.range e.height)).sum = e.width * e.height := by
    rw [List.map_const', List.sum_replicate_nat, List.length_range, Nat.mul_comm]
  simpa [positions, pixelCount, List.length_flatMap] using row_length

/-! ### In machine words -/

def lastIn (w : Words) (start : Int) (size : Nat) : Option Int := do
  let stop ← w.signed (start + size)
  w.signed (stop - 1)

def maxXIn (w : Words) (e : Extent) : Option Int := lastIn w e.minX e.width

def maxYIn (w : Words) (e : Extent) : Option Int := lastIn w e.minY e.height

/-- The last column and row are computed only where they decide. -/
def containsIn (w : Words) (e : Extent) (x y : Int) : Option Bool :=
  if e.minX ≤ x then do
    let maxX ← e.maxXIn w
    if x ≤ maxX && e.minY ≤ y then return y ≤ (← e.maxYIn w) else return false
  else some false

def axis (low high : Int) : List Int :=
  (List.range (high - low + 1).toNat).map fun (k : Nat) => low + k

def rowIn (w : Words) (e : Extent) (y : Int) : Option (List (Int × Int)) :=
  (e.maxXIn w).map fun maxX => (axis e.minX maxX).map fun x => (x, y)

/-- All pixels in the order of `positions`. The last column is computed anew for every row. -/
def positionsIn (w : Words) (e : Extent) : Option (List (Int × Int)) := do
  let maxY ← e.maxYIn w
  let rows ← (axis e.minY maxY).mapM (e.rowIn w)
  return rows.flatten

end Extent

end RasterScript
