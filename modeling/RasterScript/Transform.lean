import RasterScript.Extent
import RasterScript.Number.Arithmetic

/-! Maps between the world, where scripts compute, and the pixels of an image. -/
namespace RasterScript

/-- A map from world to image coordinates, and its inverse where it has one. -/
structure Transform (ν : Type) where
  toImage : ν → ν → ν × ν
  toWorld : ν → ν → Option (ν × ν)
  /-- Known to leave all coordinates as they are. -/
  isIdentity : Bool

namespace Transform

variable {ν : Type}

def identity : Transform ν where
  toImage x y := (x, y)
  toWorld x y := some (x, y)
  isIdentity := true

variable [Arithmetic ν]

open Arithmetic (ofInt nearest?)

/-- Each axis is scaled and then moved. There is an inverse unless a scale is zero. -/
def affine (scaleX scaleY offsetX offsetY : ν) : Transform ν where
  toImage x y := (x * scaleX + offsetX, y * scaleY + offsetY)
  toWorld x y :=
    if scaleX == ofInt 0 || scaleY == ofInt 0 then none
    else some ((x - offsetX) / scaleX, (y - offsetY) / scaleY)
  isIdentity :=
    scaleX == ofInt 1 && scaleY == ofInt 1 && offsetX == ofInt 0 && offsetY == ofInt 0

def translate (dx dy : ν) : Transform ν := affine (ofInt 1) (ofInt 1) dx dy

def scale (sx sy : ν) : Transform ν := affine sx sy (ofInt 0) (ofInt 0)

/-- The same map with no inverse known. -/
def oneWay (t : Transform ν) : Transform ν where
  toImage := t.toImage
  toWorld _ _ := none
  isIdentity := false

/-- The pixel of a coordinate: the nearest one, as far as 64 bits reach. Only finite coordinates
have one. -/
def pixel? (v : ν) : Option Int := (nearest? v).map Number.saturate

def pixelAt? (p : ν × ν) : Option (Int × Int) := do
  let px ← pixel? p.1
  let py ← pixel? p.2
  return (px, py)

def imagePixel? (t : Transform ν) (x y : ν) : Option (Int × Int) := pixelAt? (t.toImage x y)

def worldOf? (t : Transform ν) (px py : Int) : Option (ν × ν) := t.toWorld (ofInt px) (ofInt py)

/-- How many pixels lie between two, if 32 bits can count them. -/
def count? (low high : Int) : Option Nat :=
  let n := high - low + 1
  if 0 ≤ n && n < Number.twoTo 32 then some n.toNat else none

/-- The world pixels between the corners of an image. -/
def worldExtent? (t : Transform ν) (e : Extent) : Option Extent := do
  let (x0, y0) ← t.worldOf? e.minX e.minY
  let (x1, y1) ← t.worldOf? e.maxX e.maxY
  let minX ← pixel? (Arithmetic.min x0 x1)
  let minY ← pixel? (Arithmetic.min y0 y1)
  let maxX ← pixel? (Arithmetic.max x0 x1)
  let maxY ← pixel? (Arithmetic.max y0 y1)
  return ⟨minX, minY, ← count? minX maxX, ← count? minY maxY⟩

def countIn (w : Words) (low high : Int) : Option (Option Nat) := do
  let n ← w.signed ((← w.signed (high - low)) + 1)
  return if 0 ≤ n && n < Number.twoTo 32 then some n.toNat else none

/-- The world pixels between the corners of an image, in machine words. None of them may be missing;
that the program stops is something else. -/
def worldExtentIn (w : Words) (t : Transform ν) (e : Extent) : Option (Option Extent) :=
  OptionT.run do
    let (x0, y0) ← .mk (some (t.worldOf? e.minX e.minY))
    let cornerX ← e.maxXIn w
    let cornerY ← e.maxYIn w
    let (x1, y1) ← .mk (some (t.worldOf? cornerX cornerY))
    let minX ← .mk (some (pixel? (Arithmetic.min x0 x1)))
    let minY ← .mk (some (pixel? (Arithmetic.min y0 y1)))
    let maxX ← .mk (some (pixel? (Arithmetic.max x0 x1)))
    let maxY ← .mk (some (pixel? (Arithmetic.max y0 y1)))
    let width ← .mk (countIn w minX maxX)
    let height ← .mk (countIn w minY maxY)
    return ⟨minX, minY, width, height⟩

/-- The world position of a pixel of an image, if it rounds to a pixel inside the bounds. -/
def sweepPosition? (t : Transform ν) (bounds : Extent) (px py : Int) : Option (ν × ν) := do
  let p ← t.worldOf? px py
  let (x, y) ← pixelAt? p
  if bounds.contains x y then some p else none

end Transform

end RasterScript
