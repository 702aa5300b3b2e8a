import RasterScript.Builtin
import RasterScript.Script.Access
import RasterScript.Symbol

/-! What the names of a script stand for, and how names can be misused. -/
namespace RasterScript

/-- What a name in an expression or on the left of an assignment stands for. -/
inductive Referent where
  | symbol (id : SymbolId)
  | constant (value : Float)
deriving DecidableEq, Repr

/-- The names and calls of a script, by their place in the text. -/
structure Binding where
  table : SymbolTable
  /-- The newest entry first. -/
  names : List (Span × Referent)
  /-- The newest entry first. -/
  calls : List (Span × Builtin)
  /-- The value of reads outside an image, if the script sets one. -/
  outside : Option Float
deriving DecidableEq, Repr

namespace Binding

def referent? (b : Binding) (span : Span) : Option Referent := b.names.lookup span

def symbolAt? (b : Binding) (span : Span) : Option SymbolId :=
  match b.referent? span with
  | some (.symbol id) => some id
  | _ => none

def builtinAt? (b : Binding) (span : Span) : Option Builtin := b.calls.lookup span

def sortedNames (b : Binding) : List (Span × Referent) :=
  b.names.mergeSort fun x y => x.1.before y.1

def sortedCalls (b : Binding) : List (Span × Builtin) :=
  b.calls.mergeSort fun x y => x.1.before y.1

/-- How a script can misuse a name. -/
inductive Fault where
  | undefined (name : String)
  | loopVarOutside (name : String)
  | writeSource (name : String)
  | readDestination (name : String)
  | assignLoopVar (name : String)
  | assignConstant (name : String)
  | constantImage (name : String)
  | kindConflict (conflict : KindConflict)
  | unknownFunction (name : String)
  | argumentCount (function : Builtin) (count : Nat)
  | listArgument (function : Builtin)
  | listAsScalar
  | nestedList
  | foreachNeedsList
  | listToDestination (name : String)
  | compoundList (name : String)
  | outsideLoop (keyword : String)
  | destinationInLoop (name : String)
  | noDestination
  | access (fault : Access.Fault)
  | notImage (name : String) (kind : SymbolKind)
  | unknownOption (name : String)
  | optionNotConstant
  | imageInInit (name : String)
  | pixelInInit (function : PositionFunction)
  | neverAssigned (name : String)
  | neverRead (name : String)
deriving DecidableEq, Repr

namespace Fault

def code : Fault → String
  | undefined _ => "E0101"
  | loopVarOutside _ => "E0102"
  | writeSource _ => "E0103"
  | readDestination _ => "E0104"
  | assignLoopVar _ => "E0105"
  | assignConstant _ | constantImage _ => "E0106"
  | kindConflict _ => "E0107"
  | unknownFunction _ | argumentCount _ _ | listArgument _ => "E0108"
  | listAsScalar | nestedList | foreachNeedsList | listToDestination _ | compoundList _ => "E0109"
  | outsideLoop _ => "E0110"
  | destinationInLoop _ => "E0111"
  | noDestination => "E0112"
  | access _ | notImage _ _ => "E0113"
  | unknownOption _ | optionNotConstant => "E0114"
  | imageInInit _ | pixelInInit _ => "E0115"
  | neverAssigned _ => "W0001"
  | neverRead _ => "W0002"

/-- Unused images are worth a warning; all else is an error. -/
def level : Fault → Level
  | neverAssigned _ | neverRead _ => .warning
  | _ => .error

def message : Fault → String
  | undefined name => s!"undefined variable '{name}'"
  | loopVarOutside name => s!"loop variable '{name}' used outside its foreach body"
  | writeSource name => s!"cannot write to source image '{name}'"
  | readDestination name => s!"cannot read destination image '{name}'"
  | assignLoopVar name => s!"cannot assign to loop variable '{name}'"
  | assignConstant name => s!"cannot assign to constant '{name}'"
  | constantImage name => s!"cannot use constant '{name}' as an image name"
  | kindConflict conflict => conflict.message
  | unknownFunction name => s!"unknown function '{name}'"
  | argumentCount function count =>
    s!"function '{function.name}' expects {function.arityText}, found {count}"
  | listArgument function => s!"function '{function.name}' does not accept a list argument"
  | listAsScalar => "list used where a scalar is expected"
  | nestedList => "lists cannot be nested"
  | foreachNeedsList => "foreach needs a list or a range"
  | listToDestination name => s!"cannot write a list to destination image '{name}'"
  | compoundList name => s!"compound assignment to list '{name}'"
  | outsideLoop keyword => s!"'{keyword}' outside a loop"
  | destinationInLoop name => s!"destination image '{name}' cannot be assigned inside a loop"
  | noDestination => "script has no destination image"
  | access fault => fault.message
  | notImage name kind => s!"'{name}' is a {kind.describe}, not an image"
  | unknownOption name => s!"unknown option '{name}'"
  | optionNotConstant => "option 'outside' needs a constant value"
  | imageInInit name => s!"image '{name}' cannot be read in an init block"
  | pixelInInit function => s!"'{function.name}()' is not available in an init block"
  | neverAssigned name => s!"destination image '{name}' is never assigned"
  | neverRead name => s!"source image '{name}' is never read"

end Fault

def Fault.diagnostic (f : Located Fault) : Diagnostic :=
  ⟨some f.what.code, f.what.level, f.span, f.what.message⟩

end Binding

end RasterScript
