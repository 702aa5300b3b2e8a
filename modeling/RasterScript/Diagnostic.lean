import RasterScript.Span
import RasterScript.Text.Position

/-! Messages about a script, each with its place in the text. -/
namespace RasterScript

inductive Level where
  | error
  | warning
deriving DecidableEq, Repr

def Level.name : Level → String
  | error => "error"
  | warning => "warning"

def Level.label : Level → String
  | error => "ERROR"
  | warning => "WARNING"

/-- Something found at a place of the text. -/
structure Located (α : Type) where
  what : α
  span : Span
deriving DecidableEq, Repr

structure Diagnostic where
  code : Option String
  level : Level
  span : Span
  message : String
deriving DecidableEq, Repr

namespace Diagnostic

def isError (d : Diagnostic) : Bool := d.level = .error

def render (text : String) (d : Diagnostic) : String :=
  let p := Text.position text d.span.start
  s!"{p.line}:{p.column} {d.level.label} : {d.message}"

end Diagnostic

/-- All messages about one text, in the order in which they were found. -/
structure Report where
  text : String
  entries : List Diagnostic
deriving DecidableEq, Repr

namespace Report

def empty (text : String) : Report := ⟨text, []⟩

def append (r : Report) (ds : List Diagnostic) : Report := { r with entries := r.entries ++ ds }

def hasErrors (r : Report) : Bool := r.entries.any Diagnostic.isError

def errorCount (r : Report) : Nat := (r.entries.filter Diagnostic.isError).length

def warningCount (r : Report) : Nat := r.entries.length - r.errorCount

def render (r : Report) : String :=
  String.join (r.entries.map fun d => d.render r.text ++ "\n")

end Report

end RasterScript
