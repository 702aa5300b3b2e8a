import RasterScript.Script

/-! The meaning of the bracketed groups after an image: a band, a pixel position, or both. -/
namespace RasterScript

structure Access (ε : Type) where
  band : Option ε
  position : Option (Coord ε × Coord ε)
deriving DecidableEq, Repr

namespace Access

inductive Fault where
  | tooManyGroups
  | relativeBand
  | notOneBand
  | notTwoCoordinates
deriving DecidableEq, Repr

def Fault.message : Fault → String
  | tooManyGroups => "too many bracket groups in image access"
  | relativeBand => "'$' marks a pixel coordinate, not a band index"
  | notOneBand => "expected a single band index"
  | notTwoCoordinates => "a pixel position needs exactly two coordinates"

variable {ε : Type}

/-- A group of one absolute coordinate is a band. -/
def bandOf (s : Selector ε) : Except (Located Fault) ε :=
  match s.coords with
  | [c] => if c.relative then .error ⟨.relativeBand, c.span⟩ else .ok c.value
  | _ => .error ⟨.notOneBand, s.span⟩

/-- A group of two coordinates is a pixel position. -/
def pointOf (s : Selector ε) : Except (Located Fault) (Coord ε × Coord ε) :=
  match s.coords with
  | [x, y] => .ok (x, y)
  | _ => .error ⟨.notTwoCoordinates, s.span⟩

/-- The groups `[band]`, `[x, y]` or `[band][x, y]`. -/
def ofSelectors : List (Selector ε) → Except (Located Fault) (Access ε)
  | [] => .ok ⟨none, none⟩
  | [s] =>
    match s.coords with
    | [x, y] => .ok ⟨none, some (x, y)⟩
    | _ => return ⟨some (← bandOf s), none⟩
  | [s, p] => return ⟨some (← bandOf s), some (← pointOf p)⟩
  | _ :: _ :: extra :: _ => .error ⟨.tooManyGroups, extra.span⟩

end Access

end RasterScript
