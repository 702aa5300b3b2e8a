import RasterScript.Machine
import RasterScript.Raster.Grid
import RasterScript.Text.Quoted
import RasterScript.Transform

/-! Sessions: compiled code with rasters bound to its images, evaluated pixel by pixel. Rasters are
kept in a gallery and bound by number, so that one raster can serve several images at once. -/
namespace RasterScript

abbrev Gallery := List Raster

namespace Gallery

def sample (g : Gallery) (raster : Nat) (x y : Int) (band : Nat) : Except Raster.Fault Float :=
  match g[raster]? with
  | some r => r.sample x y band
  | none => .error (.outOfBounds x y)

def sampleIn (w : Words) (g : Gallery) (raster : Nat) (x y : Int) (band : Nat) :
    Option (Except Raster.Fault Float) :=
  match g[raster]? with
  | some r => r.grid.sample w x y band
  | none => some (.error (.outOfBounds x y))

def index (g : Gallery) (raster : Nat) (x y : Int) (band : Nat) : Except Raster.Fault Nat :=
  match g[raster]? with
  | some r => r.index x y band
  | none => .error (.outOfBounds x y)

def put (g : Gallery) (raster i : Nat) (value : Float) : Gallery :=
  g.modify raster fun r => r.put i value

def set (g : Gallery) (raster : Nat) (x y : Int) (band : Nat) (value : Float) :
    Except Raster.Fault Gallery :=
  (g.index raster x y band).map fun i => g.put raster i value

end Gallery

structure BoundRaster where
  raster : Nat
  transform : Transform Float

structure Session where
  code : Code
  /-- By the number of the source. -/
  sources : List (Option BoundRaster)
  /-- By the number of the destination. -/
  destinations : List (Option BoundRaster)
  bounds : Option Extent
  imageValues : List Float
  /-- Whether the `init` code has run. -/
  initialised : Bool

namespace Session

def start (c : Code) : Session where
  code := c
  sources := List.replicate c.sources.length none
  destinations := List.replicate c.destinations.length none
  bounds := none
  imageValues := List.replicate c.imageSlots.length 0
  initialised := false

def describe (s : Session) : String :=
  let names (l : List String) := "[" ++ ", ".intercalate (l.map Text.quoted) ++ "]"
  let bounds := match s.bounds with
    | none => "None"
    | some b =>
      s!"Some(Extent \x7b min_x: {b.minX}, min_y: {b.minY}, width: {b.width}, " ++
        s!"height: {b.height} \x7d)"
  s!"Runtime \x7b sources: {names s.code.sources}, " ++
    s!"destinations: {names s.code.destinations}, bounds: {bounds}, .. \x7d"

/-! ### Binding -/

def imageIndex (names : List String) (image : String) : Except Failure Nat :=
  match names.findIdx? (· = image) with
  | some i => .ok i
  | none => .error (.unknownImage image)

def bindSource (s : Session) (image : String) (bound : BoundRaster) : Except Failure Session := do
  let i ← imageIndex s.code.sources image
  return { s with sources := s.sources.set i (some bound) }

def bindDestination (s : Session) (image : String) (bound : BoundRaster) :
    Except Failure Session := do
  let i ← imageIndex s.code.destinations image
  return { s with destinations := s.destinations.set i (some bound) }

def boundAt (slots : List (Option BoundRaster)) (image : String) (i : Nat) :
    Except Failure BoundRaster :=
  match slots[i]? with
  | some (some bound) => .ok bound
  | _ => .error (.unboundImage image)

/-! ### Access by name -/

def pixelOf (image : String) (bound : BoundRaster) (x y : Float) : Except Failure (Int × Int) :=
  match bound.transform.imagePixel? x y with
  | some p => .ok p
  | none => .error (.outOfBounds image x y)

def readImage (s : Session) (g : Gallery) (image : String) (x y : Float) (band : Nat) :
    Except Failure Float := do
  let i ← imageIndex s.code.sources image
  let bound ← boundAt s.sources image i
  let (px, py) ← pixelOf image bound x y
  (g.sample bound.raster px py band).mapError (.ofRaster image x y)

def writeImage (s : Session) (g : Gallery) (image : String) (x y : Float) (band : Nat)
    (value : Float) : Except Failure Gallery := do
  let i ← imageIndex s.code.destinations image
  let bound ← boundAt s.destinations image i
  let (px, py) ← pixelOf image bound x y
  (g.set bound.raster px py band value).mapError (.ofRaster image x y)

/-! ### Bounds -/

def setBounds (s : Session) (bounds : Extent) : Session := { s with bounds := some bounds }

def firstBound? (slots : List (Option BoundRaster)) : Option (Nat × BoundRaster) :=
  slots.zipIdx.findSome? fun (slot, i) => slot.map (i, ·)

def extentOf (g : Gallery) (raster : Nat) : Extent :=
  match g[raster]? with
  | some r => r.extent
  | none => .sized 0 0

/-- The world pixels that the first bound destination covers. -/
def defaultBounds (s : Session) (g : Gallery) : Except Failure Extent :=
  match firstBound? s.destinations with
  | none => .error .boundsNotSet
  | some (i, bound) =>
    let extent := extentOf g bound.raster
    if bound.transform.isIdentity then .ok extent
    else
      match bound.transform.worldExtent? extent with
      | some e => .ok e
      | none => .error (.nonInvertible (s.code.destinationName i))

def setDefaultBounds (s : Session) (g : Gallery) : Except Failure Session :=
  (s.defaultBounds g).map s.setBounds

def defaultBoundsIn (w : Words) (s : Session) (g : Gallery) : Except Failure Extent :=
  match firstBound? s.destinations with
  | none => .error .boundsNotSet
  | some (i, bound) => do
    let extent := extentOf g bound.raster
    if bound.transform.isIdentity then return extent
    match ← Failure.ofWords (bound.transform.worldExtentIn w extent) with
    | some e => return e
    | none => throw (.nonInvertible (s.code.destinationName i))

/-- Take the default bounds as the session's own. -/
def takeDefaultBounds (w : Words) (g : Gallery) : ExceptT Failure (StateM Session) Unit := do
  let bounds ← (← get).defaultBoundsIn w g
  modify (·.setBounds bounds)

/-! ### Evaluation -/

/-- The raster and the band that code reads from a source. The band must be one of the raster's. -/
def sourceBand (s : Session) (g : Gallery) (i : Nat) (band : Float) :
    Except Failure (BoundRaster × Nat) := do
  let image := s.code.sourceName i
  let bound ← boundAt s.sources image i
  let bands := ((g[bound.raster]?).map Raster.bands).getD 0
  match (Number.natural? band).filter (· < bands) with
  | none => .error (.bandOutOfRange image band bands)
  | some b => .ok (bound, b)

/-- A sample that may be missing: a position outside reads as the script's value for it, if there is
one. -/
def orOutside (s : Session) (i : Nat) (x y : Float) (sample : Option Float) :
    Except Failure Float :=
  match sample <|> s.code.outside with
  | some v => .ok v
  | none => .error (.outOfBounds (s.code.sourceName i) x y)

def sampleSource (s : Session) (g : Gallery) (i : Nat) (band x y : Float) :
    Except Failure Float := do
  let (bound, b) ← s.sourceBand g i band
  s.orOutside i x y <| (bound.transform.imagePixel? x y).bind fun (px, py) =>
    (g.sample bound.raster px py b).toOption

def sampleSourceIn (w : Words) (s : Session) (g : Gallery) (i : Nat) (band x y : Float) :
    Except Failure Float := do
  let (bound, b) ← s.sourceBand g i band
  match bound.transform.imagePixel? x y with
  | none => s.orOutside i x y none
  | some (px, py) =>
    let sample ← Failure.ofWords (g.sampleIn w bound.raster px py b)
    s.orOutside i x y sample.toOption

/-- What code sees at a world position. -/
def environment (s : Session) (g : Gallery) (x y : Float) : Environment where
  x := x
  y := y
  sample := s.sampleSource g
  bounds := s.bounds.map fun e => { extent := e }

def environmentIn (w : Words) (s : Session) (g : Gallery) (x y : Float) : Environment where
  x := x
  y := y
  sample := s.sampleSourceIn w g
  bounds := s.bounds.map fun e =>
    { extent := e, maxX := Failure.ofWords (e.maxXIn w), maxY := Failure.ofWords (e.maxYIn w) }

/-- Run the `init` code on image values that start at zero. They keep the results. -/
def initialise (limit : Nat) (s : Session) (env : Environment) : Session × Except Halt Unit :=
  let zeros := List.replicate s.code.imageSlots.length 0
  let r := Machine.run limit s.code env zeros s.code.init
  match r.outputs with
  | .ok _ => ({ s with imageValues := r.imageValues, initialised := true }, .ok ())
  | .error halt => ({ s with imageValues := r.imageValues }, .error halt)

def runInit (limit : Nat) (s : Session) (g : Gallery) : Session × Except Halt Unit :=
  s.initialise limit (s.environment g 0 0)

/-- Run the code of a pixel: a value for each destination, not a number where none was written. -/
def evaluatePixel (limit : Nat) (s : Session) (env : Environment) :
    Session × Except Halt (List Float) :=
  let r := Machine.run limit s.code env s.imageValues s.code.body
  ({ s with imageValues := r.imageValues },
    r.outputs.map fun values => values.map fun v => v.getD Number.nan)

def runPixel (limit : Nat) (s : Session) (g : Gallery) (x y : Float) :
    Session × Except Halt (List Float) :=
  s.evaluatePixel limit (s.environment g x y)

/-- Evaluate one position, given what a session sees. The first evaluation runs the `init` code. -/
def evaluateWith (view : Session → Float → Float → Environment) (limit : Nat) (s : Session)
    (x y : Float) : Session × Except Halt (List Float) :=
  if s.initialised then s.evaluatePixel limit (view s x y)
  else
    match s.initialise limit (view s 0 0) with
    | (s, .ok _) => s.evaluatePixel limit (view s x y)
    | (s, .error halt) => (s, .error halt)

def evaluate (limit : Nat) (s : Session) (g : Gallery) (x y : Float) :
    Session × Except Halt (List Float) :=
  s.evaluateWith (fun t => t.environment g) limit x y

/-- More rounds of a loop than any run takes. -/
def defaultLimit : Nat := Number.twoTo 62

end Session

end RasterScript
