import RasterScript.Number.Arithmetic

/-! Functions of a fixed number of scalars. -/
namespace RasterScript

inductive ScalarFunction where
  | abs | acos | asin | atan | atan2 | ceil | con | cos | degToRad | exp | floor | hypot | isinf
  | isnan | isnull | log | log10 | radToDeg | round | sin | sqrt | tan
deriving DecidableEq, Repr

namespace ScalarFunction

open Number (nan flag truthy)

def name : ScalarFunction → String
  | abs => "abs"
  | acos => "acos"
  | asin => "asin"
  | atan => "atan"
  | atan2 => "atan2"
  | ceil => "ceil"
  | con => "con"
  | cos => "cos"
  | degToRad => "degToRad"
  | exp => "exp"
  | floor => "floor"
  | hypot => "hypot"
  | isinf => "isinf"
  | isnan => "isnan"
  | isnull => "isnull"
  | log => "log"
  | log10 => "log10"
  | radToDeg => "radToDeg"
  | round => "round"
  | sin => "sin"
  | sqrt => "sqrt"
  | tan => "tan"

def all : List ScalarFunction :=
  [abs, acos, asin, atan, atan2, ceil, con, cos, degToRad, exp, floor, hypot, isinf, isnan, isnull,
   log, log10, radToDeg, round, sin, sqrt, tan]

def arity : ScalarFunction → Nat × Nat
  | atan2 | hypot => (2, 2)
  | con => (1, 4)
  | log | round => (1, 2)
  | _ => (1, 1)

/-- One to three arguments choose by the truth of the first, four by its sign. -/
def choose : List Float → Float
  | [x] => flag (truthy x)
  | [x, a] => if truthy x then a else 0
  | [x, a, b] => if truthy x then a else b
  | [x, a, b, c] => if 0 < x then a else if x == 0 then b else if x < 0 then c else nan
  | _ => nan

/-- Two to the power of an integer. -/
def power2 (e : Int) : Float := (Number.Binary.finite false 1 e).toFloat

/-- The root of the sum of the squares of two sides, the first the longer, with one correction of
its rounding error. -/
def rootOfSquares (a b : Float) : Float :=
  let h := Float.sqrt (a * a + b * b)
  if h ≤ 2 * b then
    let d := h - b
    h - (a * (2 * d - a) + (d - 2 * (a - b)) * d) / (2 * h)
  else
    let d := h - a
    h - (2 * d * (a - 2 * b) + ((4 * d - b) * b + d * d)) / (2 * h)

/-- The hypotenuse over two sides. Sides far from one are scaled by a power of two, so that no
square overflows or vanishes. -/
def hypotenuse (x y : Float) : Float :=
  if x.isInf || y.isInf then (Number.Binary.infinite false).toFloat
  else if x.isNaN || y.isNaN then nan
  else
    let (a, b) := if x.abs < y.abs then (y.abs, x.abs) else (x.abs, y.abs)
    let scale := power2 (-600)
    if power2 511 < a then
      if b ≤ a * power2 (-54) then a + b else rootOfSquares (a * scale) (b * scale) / scale
    else if b < power2 (-459) then
      if b / power2 (-54) ≤ a then a + b else rootOfSquares (a / scale) (b / scale) * scale
    else if b ≤ a * power2 (-54) then a + b
    else rootOfSquares a b

def pi : Float := 3.141592653589793

/-- The value for given arguments; a missing one counts as NaN, an optional one by its default. -/
def apply (f : ScalarFunction) (args : List Float) : Float :=
  let a := args.head?.getD nan
  let b := args[1]?
  match f with
  | abs => a.abs
  | acos => a.acos
  | asin => a.asin
  | atan => a.atan
  | atan2 => a.atan2 (b.getD nan)
  | ceil => a.ceil
  | con => choose args
  | cos => a.cos
  | degToRad => a * (pi / 180)
  | exp => a.exp
  | floor => a.floor
  | hypot => hypotenuse a (b.getD nan)
  | isinf => flag a.isInf
  | isnan | isnull => flag a.isNaN
  | log =>
    match b with
    | some base => a.log / base.log
    | none => a.log
  | log10 => a.log10
  | radToDeg => a * 57.29577951308232
  | round =>
    match b with
    | some step => (a / step).round * step
    | none => a.round
  | sin => a.sin
  | sqrt => a.sqrt
  | tan => a.tan

end ScalarFunction

end RasterScript
