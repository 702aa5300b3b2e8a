import RasterScript.Json.Read
import RasterScript.Raster

/-! Rasters as JSON documents. A raster or extent is an object, or an array of its fields in
order. -/
namespace RasterScript

namespace Extent

def toJson (e : Extent) : Json :=
  .record
    [("min_x", .ofInt e.minX), ("min_y", .ofInt e.minY), ("width", .ofNat e.width),
     ("height", .ofNat e.height)]

end Extent

namespace Raster

/-- The document of a raster; samples that are no finite numbers are null. -/
def toJson (r : Raster) : Json :=
  .record
    [("extent", r.extent.toJson), ("bands", .ofNat r.bands),
     ("data", .array (r.data.toList.map .ofFloat))]

def write (r : Raster) : String := r.toJson.compact

end Raster

namespace Json

abbrev Fields := List (Option Json)

/-- The members of an object by name. Other members do not count, but every name must be readable
and no field may be there twice. -/
def fields? (names : List String) (members : List (List Char × Json)) : Option Fields := do
  let members ← members.mapM fun (raw, value) => (textOf? raw).map (·, value)
  names.mapM fun name =>
    match members.filter fun m => m.1 = name with
    | [] => some none
    | [m] => some (some m.2)
    | _ => none

/-- The fields of a document: the members of an object, or the items of an array that is long
enough. -/
def fieldsOf? (names : List String) : Json → Option Fields
  | .object members => fields? names members
  | .array items => if items.length = names.length then some (items.map some) else none
  | _ => none

/-- A signed integer of 64 bits. -/
def coordinate? (j : Json) : Option Int := do
  let n ← j.int?
  if -(Number.twoTo 63 : Int) ≤ n && n < Number.twoTo 63 then some n else none

/-- A natural number of 32 bits. -/
def size? (j : Json) : Option Nat := do
  let n ← j.int?
  if 0 ≤ n && n < Number.twoTo 32 then some n.toNat else none

/-- A sample; null stands for no number. -/
def sample? : Json → Option Float
  | .null => some (Number.Binary.toFloat .nan)
  | j => j.float?

end Json

namespace Extent

def ofJson? (j : Json) : Option Extent :=
  match j.fieldsOf? ["min_x", "min_y", "width", "height"] with
  | some [some x, some y, some width, some height] => do
    return ⟨← x.coordinate?, ← y.coordinate?, ← width.size?, ← height.size?⟩
  | _ => none

end Extent

namespace Raster

/-- The extent, bands and samples of a document. An object without a number of bands has one band. -/
def parts? (j : Json) : Option (Extent × Nat × Array Float) :=
  match j.fieldsOf? ["extent", "bands", "data"] with
  | some [some extent, bands, some (.array items)] => do
    let extent ← Extent.ofJson? extent
    let bands ← match bands with
      | some b => b.size?
      | none => some 1
    let data ← items.mapM Json.sample?
    return (extent, bands, data.toArray)
  | _ => none

def ofJson? (j : Json) : Option Raster :=
  (parts? j).bind fun (extent, bands, data) => (ofData extent bands data).toOption

def read (text : String) : Option Raster := (Json.read text).bind ofJson?

end Raster

end RasterScript
