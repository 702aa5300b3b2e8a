import RasterScript.Span
import RasterScript.Diagnostic

/-! Scripts as trees. Every node carries the range of text that it was read from. -/
namespace RasterScript

/-- A name as it stands in the text. -/
structure Ident where
  name : String
  span : Span
deriving DecidableEq, Repr

inductive UnaryOp where
  | neg
  | plus
  | not
deriving DecidableEq, Repr

def UnaryOp.symbol : UnaryOp → String
  | neg => "-"
  | plus => "+"
  | not => "!"

inductive BinaryOp where
  | add | sub | mul | div | mod | pow
  | eq | ne | lt | le | gt | ge
  | and | or | xor
deriving DecidableEq, Repr

def BinaryOp.symbol : BinaryOp → String
  | add => "+"
  | sub => "-"
  | mul => "*"
  | div => "/"
  | mod => "%"
  | pow => "^"
  | eq => "=="
  | ne => "!="
  | lt => "<"
  | le => "<="
  | gt => ">"
  | ge => ">="
  | and => "&&"
  | or => "||"
  | xor => "^|"

inductive AssignOp where
  | set | add | sub | mul | div | mod
deriving DecidableEq, Repr

def AssignOp.binary? : AssignOp → Option BinaryOp
  | set => none
  | add => some .add
  | sub => some .sub
  | mul => some .mul
  | div => some .div
  | mod => some .mod

/-- A coordinate in an image access; a relative one counts from the current pixel. -/
structure Coord (ε : Type) where
  relative : Bool
  value : ε
  span : Span
deriving DecidableEq, Repr

/-- One bracketed group of an image access. -/
structure Selector (ε : Type) where
  coords : List (Coord ε)
  span : Span
deriving DecidableEq, Repr

inductive Expr where
  | number (value : Float) (span : Span)
  /-- A variable, a constant, or a source image at the current pixel. -/
  | name (ident : Ident) (span : Span)
  | call (function : Ident) (args : List Expr) (span : Span)
  | image (ident : Ident) (selectors : List (Selector Expr)) (span : Span)
  | list (items : List Expr) (span : Span)
  | unary (op : UnaryOp) (arg : Expr) (span : Span)
  | binary (op : BinaryOp) (left right : Expr) (span : Span)
  | cond (test yes no : Expr) (span : Span)
deriving Repr

namespace Expr

def span : Expr → Span
  | number _ s | name _ s | call _ _ s | image _ _ s | list _ s | unary _ _ s | binary _ _ _ s
  | cond _ _ _ s => s

/-- The same node read from another range, as parentheses make it. -/
def withSpan (s : Span) : Expr → Expr
  | number v _ => number v s
  | name i _ => name i s
  | call f as _ => call f as s
  | image i ss _ => image i ss s
  | list es _ => list es s
  | unary o a _ => unary o a s
  | binary o a b _ => binary o a b s
  | cond t a b _ => cond t a b s

end Expr

/-- What a `foreach` runs over: the items of a list, or the integers between two bounds. -/
inductive Source where
  | list (items : Expr)
  | range (low high : Expr)
deriving Repr

/-- The two conditional loops: run while the test holds, or until it does. -/
inductive LoopKind where
  | whileTrue
  | untilTrue
deriving DecidableEq, Repr

/-- Statements that run for every pixel. -/
inductive Stmt where
  | assign (target : Ident) (op : AssignOp) (value : Expr) (span : Span)
  | cond (test : Expr) (yes : Stmt) (no : Option Stmt) (span : Span)
  | loop (kind : LoopKind) (test : Expr) (body : Stmt) (span : Span)
  | foreach (var : Ident) (source : Source) (body : Stmt) (span : Span)
  | block (body : List Stmt) (span : Span)
  | breakIf (test : Expr) (span : Span)
  | leave (span : Span)
deriving Repr

def Stmt.span : Stmt → Span
  | assign _ _ _ s | cond _ _ _ s | loop _ _ _ s | foreach _ _ _ s | block _ s | breakIf _ s
  | leave s => s

inductive ImageRole where
  | source
  | destination
deriving DecidableEq, Repr

structure ImageDecl where
  ident : Ident
  role : ImageRole
  span : Span
deriving DecidableEq, Repr

structure NamedValue where
  ident : Ident
  value : Expr
deriving Repr

/-- What may stand at the top of a script: declarations, and statements. -/
inductive Item where
  | images (decls : List ImageDecl) (span : Span)
  | init (values : List NamedValue) (span : Span)
  | options (values : List NamedValue) (span : Span)
  | stmt (statement : Stmt)
deriving Repr

/-- A script: what was read of it, in the order of the text. -/
structure Script where
  items : List Item
  span : Span
deriving Repr

end RasterScript
