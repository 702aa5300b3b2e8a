import RasterScript.Raster.File

/-! Rasters as machine words count them. The number of samples is a word, so it can be another than
that of the pixels and bands. -/
namespace RasterScript

/-- Samples in the order of a raster's, but nothing says how many. -/
structure Grid where
  extent : Extent
  bands : Nat
  data : Array Float
deriving DecidableEq

def Raster.grid (r : Raster) : Grid := ⟨r.extent, r.bands, r.data⟩

namespace Grid

def sampleCount (w : Words) (extent : Extent) (bands : Nat) : Option Nat :=
  w.unsigned (extent.pixelCount * bands)

def ofData (w : Words) (extent : Extent) (bands : Nat) (data : Array Float) :
    Option (Except Raster.Fault Grid) :=
  if bands = 0 then some (.error .noBands)
  else (sampleCount w extent bands).map fun expected =>
    if data.size = expected then .ok ⟨extent, bands, data⟩
    else .error (.dataLength expected data.size)

def filled (w : Words) (extent : Extent) (bands : Nat) (value : Float) :
    Option (Except Raster.Fault Grid) :=
  if bands = 0 then some (.error .noBands)
  else (sampleCount w extent bands).map fun n => .ok ⟨extent, bands, Array.replicate n value⟩

def ofFunction (w : Words) (extent : Extent) (f : Int → Int → Float) : Option Grid :=
  (extent.positionsIn w).map fun positions =>
    ⟨extent, 1, (positions.map fun (x, y) => f x y).toArray⟩

def place (w : Words) (r : Grid) (x y : Int) (band : Nat) : Option Nat := do
  let column ← w.distance r.extent.minX x
  let row ← w.distance r.extent.minY y
  let pixel ← w.unsigned ((← w.unsigned (row * r.extent.width)) + column)
  w.unsigned ((← w.unsigned (pixel * r.bands)) + band)

/-- Where the sample of a pixel and band is kept; the pixel is looked at first. -/
def index (w : Words) (r : Grid) (x y : Int) (band : Nat) : Option (Except Raster.Fault Nat) := do
  if ← r.extent.containsIn w x y then
    if band < r.bands then return .ok (← r.place w x y band)
    else return .error (.bandOutOfRange band r.bands)
  else return .error (.outOfBounds x y)

/-- The sample of a pixel and band. A place outside the samples stops the program. -/
def sample (w : Words) (r : Grid) (x y : Int) (band : Nat) :
    Option (Except Raster.Fault Float) := do
  match ← r.index w x y band with
  | .ok i => (r.data[i]?).map .ok
  | .error fault => return .error fault

def set (w : Words) (r : Grid) (x y : Int) (band : Nat) (value : Float) :
    Option (Except Raster.Fault Grid) := do
  match ← r.index w x y band with
  | .ok i =>
    if i < r.data.size then return .ok { r with data := r.data.setIfInBounds i value } else none
  | .error fault => return .error fault

def toJson (r : Grid) : Json :=
  .record
    [("extent", r.extent.toJson), ("bands", .ofNat r.bands),
     ("data", .array (r.data.toList.map .ofFloat))]

def write (r : Grid) : String := r.toJson.compact

/-- The grid of a document. Not every document is one; that the program stops is something else. -/
def ofJson? (w : Words) (j : Json) : Option (Option Grid) :=
  match Raster.parts? j with
  | some (extent, bands, data) => (ofData w extent bands data).map Except.toOption
  | none => some none

def read (w : Words) (text : String) : Option (Option Grid) :=
  match Json.read text with
  | some j => ofJson? w j
  | none => some none

end Grid

end RasterScript
