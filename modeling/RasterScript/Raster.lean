import RasterScript.Extent

/-! Rasters: a number for every pixel and band. -/
namespace RasterScript

/-- Samples pixel by pixel in row order, those of one pixel band by band. -/
structure Raster where
  extent : Extent
  bands : Nat
  data : Array Float
  bands_pos : 0 < bands
  size_eq : data.size = extent.pixelCount * bands

namespace Raster

inductive Fault where
  | outOfBounds (x y : Int)
  | bandOutOfRange (band bands : Nat)
  | dataLength (expected found : Nat)
  | noBands
deriving DecidableEq, Repr

def Fault.message : Fault → String
  | outOfBounds x y => s!"pixel ({x}, {y}) is outside the raster"
  | bandOutOfRange band bands => s!"band {band} is out of range ({bands} band(s))"
  | dataLength expected found => s!"expected {expected} samples, found {found}"
  | noBands => "a raster needs at least one band"

def ofData (extent : Extent) (bands : Nat) (data : Array Float) : Except Fault Raster :=
  if hb : 0 < bands then
    if hs : data.size = extent.pixelCount * bands then .ok ⟨extent, bands, data, hb, hs⟩
    else .error (.dataLength (extent.pixelCount * bands) data.size)
  else .error .noBands

def filled (extent : Extent) (bands : Nat) (value : Float) : Except Fault Raster :=
  if hb : 0 < bands then
    .ok ⟨extent, bands, Array.replicate (extent.pixelCount * bands) value, hb, Array.size_replicate⟩
  else .error .noBands

def ofFunction (extent : Extent) (f : Int → Int → Float) : Raster where
  extent := extent
  bands := 1
  data := (extent.positions.map fun (x, y) => f x y).toArray
  bands_pos := Nat.one_pos
  size_eq := by simp [Extent.length_positions]

/-- Where the sample of a pixel and band is kept; the pixel is looked at first. -/
def index (r : Raster) (x y : Int) (band : Nat) : Except Fault Nat :=
  if r.extent.contains x y then
    if band < r.bands then
      let column := (x - r.extent.minX).toNat
      let row := (y - r.extent.minY).toNat
      .ok ((row * r.extent.width + column) * r.bands + band)
    else .error (.bandOutOfRange band r.bands)
  else .error (.outOfBounds x y)

def sample (r : Raster) (x y : Int) (band : Nat) : Except Fault Float :=
  (r.index x y band).map fun i => r.data.getD i 0

def put (r : Raster) (i : Nat) (value : Float) : Raster :=
  match r with
  | ⟨extent, bands, data, bands_pos, size_eq⟩ =>
    ⟨extent, bands, data.setIfInBounds i value, bands_pos,
      by rw [Array.size_setIfInBounds, size_eq]⟩

def set (r : Raster) (x y : Int) (band : Nat) (value : Float) : Except Fault Raster :=
  (r.index x y band).map fun i => r.put i value

end Raster

end RasterScript
