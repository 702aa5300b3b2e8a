import RasterScript.Builtin.ScalarFunction
import RasterScript.Builtin.Statistic

/-! Built-in functions and constants. -/
namespace RasterScript

def constant? (name : String) : Option Float :=
  match name with
  | "M_PI" => some 3.141592653589793
  | "M_PI_2" => some 1.5707963267948966
  | "M_PI_4" => some 0.7853981633974483
  | "M_E" => some 2.718281828459045
  | "M_SQRT2" => some 1.4142135623730951
  | "NaN" | "NULL" => some Number.nan
  | _ => none

/-- Functions of the current pixel and the processing bounds. -/
inductive PositionFunction where
  | x | y | xmin | ymin | xmax | ymax | width | height
deriving DecidableEq, Repr

namespace PositionFunction

def name : PositionFunction → String
  | x => "x"
  | y => "y"
  | xmin => "xmin"
  | ymin => "ymin"
  | xmax => "xmax"
  | ymax => "ymax"
  | width => "width"
  | height => "height"

def all : List PositionFunction := [x, y, xmin, ymin, xmax, ymax, width, height]

/-- Whether the function tells the pixel itself and not the bounds. -/
def isPixel (p : PositionFunction) : Bool := p = x || p = y

end PositionFunction

/-- A built-in function. Statistics take scalars and lists, the others scalars only. -/
inductive Builtin where
  | position (f : PositionFunction)
  | scalar (f : ScalarFunction)
  | statistic (f : Statistic)
deriving DecidableEq, Repr

namespace Builtin

def name : Builtin → String
  | position f => f.name
  | scalar f => f.name
  | statistic f => f.name

def all : List Builtin :=
  PositionFunction.all.map position ++ ScalarFunction.all.map scalar ++ Statistic.all.map statistic

def ofName? (s : String) : Option Builtin := all.find? fun b => b.name = s

/-- How many arguments a function takes: at least the first number, at most the second if there is
one. -/
def arity : Builtin → Nat × Option Nat
  | position _ => (0, some 0)
  | scalar f => (f.arity.1, some f.arity.2)
  | statistic _ => (1, none)

def accepts (b : Builtin) (count : Nat) : Bool :=
  b.arity.1 ≤ count && b.arity.2.all (count ≤ ·)

def takesLists : Builtin → Bool
  | statistic _ => true
  | _ => false

def arityText (b : Builtin) : String :=
  let arguments (n : Nat) := if n = 1 then s!"{n} argument" else s!"{n} arguments"
  match b.arity with
  | (low, none) => "at least " ++ arguments low
  | (low, some high) => if low = high then arguments low else s!"{low} to {high} arguments"

/-- The value of a function of scalars; others have none. -/
def applyScalar (b : Builtin) (args : List Float) : Float :=
  match b with
  | scalar f => f.apply args
  | _ => Number.nan

/-- The value of a statistic; others have none. -/
def applyStatistic (b : Builtin) (values : List Float) : Float :=
  match b with
  | statistic f => f.apply values
  | _ => Number.nan

end Builtin

end RasterScript
