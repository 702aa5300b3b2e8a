/-! The two ways to end a statement. -/
namespace RasterScript

/-- Which tokens end a statement, and whether a line must be continued explicitly. -/
inductive Dialect where
  /-- Statements end with `;` and may span lines freely. -/
  | standard
  /-- Statements end with `;` or a newline; a trailing backslash continues a line. -/
  | extended
deriving DecidableEq, Repr, Inhabited

namespace Dialect

def newlineTerminates : Dialect → Bool
  | standard => false
  | extended => true

def continuationMark : Dialect → Option Char
  | standard => none
  | extended => some '\\'

/-- Whether the end of the text ends an unfinished last statement. -/
def endTerminates (d : Dialect) : Bool := d.newlineTerminates

def name : Dialect → String
  | standard => "standard"
  | extended => "extended"

def ofName? (s : String) : Option Dialect :=
  if s = "standard" then some standard else if s = "extended" then some extended else none

end Dialect

end RasterScript
