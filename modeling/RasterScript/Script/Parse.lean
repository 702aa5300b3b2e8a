import RasterScript.Script.Grammar
import RasterScript.Token.Scan

/-! Scripts read from text. Each top-level item is cut out first and read on its own, so that a bad
one does not affect its neighbours. -/
namespace RasterScript

namespace Script

/-- Whether the next token that is not a line end is `else`. -/
def elseFollows (ts : List Token) : Bool :=
  ((ts.find? fun t => t.kind ≠ .newline).map Token.kind) = some .kwElse

/-- The brace depth after a token; a brace that closes nothing leaves it at zero. -/
def depthAfter (depth : Nat) (t : Token) : Nat :=
  match t.kind with
  | .lbrace => depth + 1
  | .rbrace => depth - 1
  | _ => depth

/-- Whether a token at the given depth ends an item, if no `else` follows. -/
def endsItem (depth : Nat) (t : Token) : Bool :=
  match t.kind with
  | .rbrace => depthAfter depth t = 0
  | .semicolon | .newline => depth = 0
  | _ => false

/-- Cut tokens at the ends of top-level items. Parentheses do not count: a terminator inside an
unclosed group still ends the item. -/
def chunksAt (depth : Nat) : List Token → List (List Token)
  | [] => []
  | t :: ts =>
    let later := chunksAt (depthAfter depth t) ts
    if endsItem depth t && !elseFollows ts then [t] :: later
    else
      match later with
      | [] => [[t]]
      | chunk :: chunks => (t :: chunk) :: chunks

def chunks (ts : List Token) : List (List Token) := chunksAt 0 ts

/-- Whether a chunk ends with a terminator or a closing brace. -/
def isClosed (chunk : List Token) : Bool :=
  chunk.getLast?.any fun t => t.isTerminator || t.kind = .rbrace

/-- The empty range after the last token. -/
def endOf (chunk : List Token) : Span :=
  match chunk.getLast? with
  | some t => .point t.span.stop
  | none => .point 0

/-- Where the end of the text ends a statement, an open chunk gets an empty line end. -/
def closed (dialect : Dialect) (chunk : List Token) : List Token :=
  if dialect.endTerminates && !isClosed chunk then chunk ++ [⟨.newline, "", endOf chunk⟩] else chunk

/-- Why a chunk is no item: the first token that cannot stand where it does. -/
inductive Fault where
  | endOfStatement
  | endOfLine
  | unexpected (text : String)
deriving DecidableEq, Repr

def Fault.message : Fault → String
  | endOfStatement => "unexpected end of statement"
  | endOfLine => "unexpected end of line"
  | unexpected text => s!"unexpected '{text}'"

def Fault.diagnostic (f : Located Fault) : Diagnostic :=
  ⟨some "E0002", .error, f.span, f.what.message⟩

/-- The fault of a chunk that could be read only up to the given rest. -/
def faultAt (chunk rest : List Token) : Located Fault :=
  match rest with
  | [] => ⟨.endOfStatement, endOf chunk⟩
  | t :: _ => ⟨if t.kind = .newline then .endOfLine else .unexpected t.text, t.span⟩

def readItem (chunk : List Token) : Except (Located Fault) Item :=
  match Grammar.item chunk with
  | .read i [] => .ok i
  | .read _ rest => .error (faultAt chunk rest)
  | .stuck rest => .error (faultAt chunk rest)

def readItems (dialect : Dialect) (ts : List Token) : List (Except (Located Fault) Item) :=
  ((chunks ts).filter fun chunk => !chunk.all Token.isTerminator).map fun chunk =>
    readItem (closed dialect chunk)

end Script

/-- What reading a text gives: a script of the items that could be read, and all faults. -/
structure Parsed where
  script : Script
  diagnostics : List Diagnostic

namespace Script

def okItem? : Except (Located Fault) Item → Option Item
  | .ok i => some i
  | .error _ => none

def itemFault? : Except (Located Fault) Item → Option (Located Fault)
  | .ok _ => none
  | .error f => some f

def parse (text : String) (dialect : Dialect) : Parsed :=
  let framed := (Token.scan text).frame dialect
  let items := readItems dialect framed.tokens
  { script := ⟨items.filterMap okItem?, ⟨0, text.utf8ByteSize⟩⟩
    diagnostics := framed.faults.map Token.Fault.diagnostic ++
      (items.filterMap itemFault?).map Fault.diagnostic }

end Script

end RasterScript
