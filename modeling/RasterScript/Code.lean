import RasterScript.Builtin
import RasterScript.Script

/-! Code: scripts with every variable in a numbered slot and every image by its number. -/
namespace RasterScript

namespace Code

/-- Where a scalar is kept. Image slots last from pixel to pixel, pixel slots start at zero. -/
inductive Slot where
  | image (index : Nat)
  | pixel (index : Nat)
deriving DecidableEq, Repr

/-- A coordinate; a relative one counts from the current pixel. -/
structure Place (ε : Type) where
  relative : Bool
  value : ε
deriving DecidableEq, Repr

structure Point (ε : Type) where
  x : Place ε
  y : Place ε
deriving DecidableEq, Repr

/-- A list: what a list slot holds, or items. -/
inductive Items (ε : Type) where
  | slot (index : Nat)
  | literal (items : List ε)
deriving DecidableEq, Repr

inductive Argument (ε : Type) where
  | one (value : ε)
  | many (items : Items ε)
deriving DecidableEq, Repr

inductive Expr where
  | const (value : Float)
  | load (slot : Slot)
  /-- A sample of a source; without a band the first, without a position that of the pixel. -/
  | read (image : Nat) (band : Option Expr) (point : Option (Point Expr))
  | position (f : PositionFunction)
  | unary (op : UnaryOp) (arg : Expr)
  | binary (op : BinaryOp) (left right : Expr)
  | select (test yes no : Expr)
  | call (f : ScalarFunction) (args : List Expr)
  | statistic (f : Statistic) (args : List (Argument Expr))
deriving Repr

inductive Stmt where
  | store (slot : Slot) (value : Expr)
  | storeList (slot : Nat) (value : Items Expr)
  | write (image : Nat) (value : Expr)
  | cond (test : Expr) (yes no : List Stmt)
  | loop (kind : LoopKind) (test : Expr) (body : List Stmt)
  | foreachItem (var : Slot) (items : Items Expr) (body : List Stmt)
  /-- The integers between two bounds, both cut toward zero and included. -/
  | foreachInt (var : Slot) (low high : Expr) (body : List Stmt)
  | breakIf (test : Expr)
  | leave
deriving Repr

end Code

/-- A whole script as code. The lists name what the numbers stand for. -/
structure Code where
  sources : List String
  destinations : List String
  imageSlots : List String
  pixelSlots : List String
  listSlots : List String
  /-- Runs once, before the first pixel. -/
  init : List Code.Stmt
  /-- Runs for every pixel. -/
  body : List Code.Stmt
  /-- The value of reads outside an image, if there is one. -/
  outside : Option Float
deriving Repr

namespace Code

def nameAt (names : List String) (index : Nat) : String := names.getD index "?"

def sourceName (c : Code) (index : Nat) : String := nameAt c.sources index

def destinationName (c : Code) (index : Nat) : String := nameAt c.destinations index

end Code

end RasterScript
