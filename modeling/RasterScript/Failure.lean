import RasterScript.Number.Text
import RasterScript.Raster

/-! Why an evaluation stops. -/
namespace RasterScript

/-- Positions are those of the world. -/
inductive Failure where
  | unknownImage (image : String)
  | unboundImage (image : String)
  | outOfBounds (image : String) (x y : Float)
  | bandOutOfRange (image : String) (band : Float) (bands : Nat)
  | boundsNotSet
  | nonInvertible (image : String)
  /-- The program itself stops: a result does not fit in a machine word, or a place lies outside the
  samples that are there. -/
  | stopped
deriving DecidableEq, Repr

namespace Failure

def message : Failure → String
  | unknownImage image => s!"unknown image '{image}'"
  | unboundImage image => s!"image '{image}' is not bound"
  | outOfBounds image x y =>
    s!"position ({Number.plain x}, {Number.plain y}) is outside image '{image}'"
  | bandOutOfRange image band bands =>
    s!"band {Number.plain band} is out of range for image '{image}' ({bands} band(s))"
  | boundsNotSet => "processing bounds are not set"
  | nonInvertible image => s!"coordinate transform of image '{image}' is not invertible"
  | stopped => "the program stopped"

def ofRaster (image : String) (x y : Float) : Raster.Fault → Failure
  | .bandOutOfRange band bands => bandOutOfRange image (Float.ofNat band) bands
  | _ => outOfBounds image x y

/-- A result of machine words, if the program does not stop. -/
def ofWords {α : Type} : Option α → Except Failure α
  | some a => .ok a
  | none => .error stopped

end Failure

/-- Why a run stops early: a failure, or a conditional loop that used up its rounds. -/
inductive Halt where
  | failed (failure : Failure)
  | exhausted
deriving DecidableEq, Repr

def Halt.message : Halt → String
  | failed f => f.message
  | exhausted => "a loop does not end"

end RasterScript
