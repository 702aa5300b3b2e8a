import RasterScript.Number.Binary

/-! What statistics and coordinate maps ask of their numbers. -/
namespace RasterScript

/-- Numbers that can be added up, compared and rounded. NaN is not less than, more than or equal to
anything. -/
class Arithmetic (ν : Type) extends Add ν, Sub ν, Mul ν, Div ν, BEq ν where
  less : ν → ν → Bool
  nan : ν
  isNaN : ν → Bool
  ofInt : Int → ν
  sqrt : ν → ν
  /-- The nearest integer, a half away from zero, if the number is finite. -/
  nearest? : ν → Option Int

namespace Arithmetic

variable {ν : Type} [Arithmetic ν]

/-- The smaller of two numbers, the second if they are equal; NaN only if both are. -/
def min (a b : ν) : ν := if isNaN b || less a b then a else b

/-- The larger of two numbers, the second if they are equal; NaN only if both are. -/
def max (a b : ν) : ν := if isNaN b || less b a then a else b

end Arithmetic

instance : Arithmetic Float where
  less a b := a < b
  nan := Number.Binary.nan.toFloat
  isNaN := Float.isNaN
  ofInt := Float.ofInt
  sqrt := Float.sqrt
  nearest? := Number.nearestInt?

namespace Number

def nan : Float := Binary.nan.toFloat

/-- Whether a value counts as true: neither zero nor NaN. -/
def truthy (x : Float) : Bool := x != 0 && !x.isNaN

def flag (b : Bool) : Float := if b then 1 else 0

end Number

end RasterScript
