import RasterScript.Progress
import RasterScript.Session

/-! Sweeps: every pixel of the first destination is evaluated once, row by row. -/
namespace RasterScript

/-- An attempt to change a sample. -/
structure Write where
  raster : Nat
  x : Int
  y : Int
  band : Nat
  value : Float
  succeeded : Bool
deriving DecidableEq, Repr

/-- A pixel of the first destination and its world position. -/
structure Visit where
  px : Int
  py : Int
  x : Float
  y : Float
deriving DecidableEq, Repr

structure Progression where
  session : Session
  gallery : Gallery
  /-- The newest first. -/
  writes : List Write
  done : Nat

namespace Progression

/-- Note a write, and put its value in place if there is one. -/
def record (p : Progression) (w : Write) (place : Option Nat) : Progression :=
  match p with
  | ⟨session, gallery, writes, done⟩ =>
    match place with
    | some i => ⟨session, gallery.put w.raster i w.value, w :: writes, done⟩
    | none => ⟨session, gallery, w :: writes, done⟩

/-- Change a sample of band 0 of a destination that is bound, for a world position. -/
def writePixel (p : Progression) (image : String) (bound : BoundRaster) (px py : Int)
    (x y value : Float) : Progression × Except Failure Unit :=
  match p.gallery.index bound.raster px py 0 with
  | .ok i => (p.record ⟨bound.raster, px, py, 0, value, true⟩ (some i), .ok ())
  | .error fault =>
    (p.record ⟨bound.raster, px, py, 0, value, false⟩ none, .error (.ofRaster image x y fault))

/-- Write the value of a destination. The first takes it at the visited pixel itself, the others
where their own transforms map the world position. -/
def writeValue (p : Progression) (v : Visit) (i : Nat) (value : Float) :
    Progression × Except Failure Unit :=
  let image := p.session.code.destinationName i
  match Session.boundAt p.session.destinations image i with
  | .error f => (p, .error f)
  | .ok bound =>
    if i = 0 then p.writePixel image bound v.px v.py v.x v.y value
    else
      match Session.pixelOf image bound v.x v.y with
      | .ok (px, py) => p.writePixel image bound px py v.x v.y value
      | .error f => (p, .error f)

def writeValues (p : Progression) (v : Visit) (i : Nat) :
    List Float → Progression × Except Failure Unit
  | [] => (p, .ok ())
  | value :: values =>
    match p.writeValue v i value with
    | (p, .ok _) => p.writeValues v (i + 1) values
    | failed => failed

def visit (limit : Nat) (p : Progression) (v : Visit) : Progression × Except Halt Unit :=
  match p.session.runPixel limit p.gallery v.x v.y with
  | (s, .error halt) => ({ p with session := s }, .error halt)
  | (s, .ok values) =>
    match { p with session := s }.writeValues v 0 values with
    | (p, .error f) => (p, .error (.failed f))
    | (p, .ok _) => ({ p with done := p.done + 1 }, .ok ())

/-- Evaluate pixels in turn, up to the first that fails. -/
def visitAll (limit : Nat) (p : Progression) : List Visit → Progression × Except Halt Unit
  | [] => (p, .ok ())
  | v :: vs =>
    match p.visit limit v with
    | (p, .ok _) => p.visitAll limit vs
    | halted => halted

end Progression

/-- What a sweep did, and whether it came to its end. -/
structure Sweep where
  session : Session
  gallery : Gallery
  events : List Event
  writes : List Write
  result : Except Halt Unit

namespace Session

def visits (t : Transform Float) (grid bounds : Extent) : List Visit :=
  grid.positions.filterMap fun (px, py) =>
    (t.sweepPosition? bounds px py).map fun (x, y) => ⟨px, py, x, y⟩

def missingDestination? (s : Session) : Option String :=
  (s.destinations.findIdx? Option.isNone).map s.code.destinationName

/-- What must hold before anything runs: all destinations are bound, and there are bounds, if need
be those of the first destination. -/
def prepare (s : Session) (g : Gallery) : Except Failure (Session × Extent) := do
  if let some image := s.missingDestination? then throw (.unboundImage image)
  let bounds ← match s.bounds with
    | some b => pure b
    | none => s.defaultBounds g
  return (s.setBounds bounds, bounds)

/-- The pixels to visit. The first destination needs an inverse transform unless it is empty. -/
def plan (s : Session) (g : Gallery) (bounds : Extent) : Except Failure (List Visit) :=
  match s.destinations.head? with
  | some (some bound) =>
    let grid := extentOf g bound.raster
    if !grid.isEmpty && (bound.transform.worldOf? grid.minX grid.minY).isNone then
      .error (.nonInvertible (s.code.destinationName 0))
    else .ok (visits bound.transform grid bounds)
  | _ => .error .boundsNotSet

/-- The number of pixels to visit, counted before the first visit. -/
def taskSize (s : Session) (g : Gallery) (bounds : Extent) : Nat :=
  match s.destinations.head? with
  | some (some bound) =>
    (extentOf g bound.raster).positions.countP fun (px, py) =>
      (bound.transform.sweepPosition? bounds px py).isSome
  | _ => 0

/-- Evaluate every pixel of the first destination. The `init` code runs each time; `every` tells
from the number of pixels how many lie between two updates. -/
def sweep (limit : Nat) (every : Nat → Nat) (s : Session) (g : Gallery) : Sweep :=
  match s.prepare g with
  | .error f => ⟨s, g, [], [], .error (.failed f)⟩
  | .ok (s, bounds) =>
    match s.plan g bounds with
    | .error f => ⟨s, g, [], [], .error (.failed f)⟩
    | .ok visits =>
      let size := s.taskSize g bounds
      match s.runInit limit g with
      | (s, .error halt) => ⟨s, g, [], [], .error halt⟩
      | (s, .ok _) =>
        let (p, result) := Progression.visitAll limit ⟨s, g, [], 0⟩ visits
        ⟨p.session, p.gallery, Progress.events (every size) size p.done result.isOk,
          p.writes.reverse, result⟩

end Session

end RasterScript
