import RasterScript.Number.Words
import RasterScript.Span

/-! Symbols and the scopes that they are declared in. Within one scope a name belongs to one
symbol. What gives out a number comes twice: with numbers that never end, and with numbers of 32
bits. -/
namespace RasterScript

inductive SymbolKind where
  | scalar
  | loopVar
  | list
  | sourceImage
  | destImage
deriving DecidableEq, Repr

namespace SymbolKind

def describe : SymbolKind → String
  | scalar => "scalar"
  | loopVar => "loop variable"
  | list => "list"
  | sourceImage => "source image"
  | destImage => "destination image"

def isImage : SymbolKind → Bool
  | sourceImage | destImage => true
  | _ => false

end SymbolKind

/-- Scopes are numbered in the order in which they are opened. -/
abbrev ScopeId := Nat

/-- Symbols are numbered in the order in which they are declared. -/
abbrev SymbolId := Nat

inductive ScopeKind where
  /-- Images and `init` variables, alive for a whole evaluation. -/
  | image
  /-- Variables that start afresh for every pixel. -/
  | pixel
  /-- The body of a `foreach`; it holds only the loop variable. -/
  | loop
deriving DecidableEq, Repr

structure Scope where
  id : ScopeId
  kind : ScopeKind
  parent : Option ScopeId
deriving DecidableEq, Repr

structure Symbol where
  id : SymbolId
  name : String
  kind : SymbolKind
  scope : ScopeId
  /-- Where the symbol was first declared. -/
  span : Span
deriving DecidableEq, Repr

/-- Where numbering goes on. -/
structure IdAllocator where
  nextScope : ScopeId
  nextSymbol : SymbolId
deriving DecidableEq, Repr

namespace IdAllocator

def initial : IdAllocator := ⟨0, 0⟩

def allocScope (ids : IdAllocator) : ScopeId × IdAllocator :=
  (ids.nextScope, { ids with nextScope := ids.nextScope + 1 })

def allocSymbol (ids : IdAllocator) : SymbolId × IdAllocator :=
  (ids.nextSymbol, { ids with nextSymbol := ids.nextSymbol + 1 })

def allocScopeIn (w : Words) (ids : IdAllocator) : Option (ScopeId × IdAllocator) :=
  (w.unsigned32 (ids.nextScope + 1)).map fun next =>
    (ids.nextScope, { ids with nextScope := next })

def allocSymbolIn (w : Words) (ids : IdAllocator) : Option (SymbolId × IdAllocator) :=
  (w.unsigned32 (ids.nextSymbol + 1)).map fun next =>
    (ids.nextSymbol, { ids with nextSymbol := next })

end IdAllocator

/-- All scopes and symbols of a script, each at the place of its number. Names lead to symbols
through an index of their own. -/
structure SymbolTable where
  ids : IdAllocator
  scopes : List Scope
  symbols : List Symbol
  byName : List ((ScopeId × String) × SymbolId)
deriving DecidableEq, Repr

/-- Two uses of one name in one scope as different kinds. -/
structure KindConflict where
  name : String
  declared : SymbolKind
  wanted : SymbolKind
deriving DecidableEq, Repr

def KindConflict.message (c : KindConflict) : String :=
  s!"symbol kind conflict: '{c.name}' is a {c.declared.describe}, not a {c.wanted.describe}"

namespace SymbolTable

def imageScope : ScopeId := 0

def pixelScope : ScopeId := 1

/-- The image scope, with the pixel scope inside it, and no symbols. -/
def initial : SymbolTable :=
  let (image, ids) := IdAllocator.initial.allocScope
  let (pixel, ids) := ids.allocScope
  { ids := ids
    scopes := [⟨image, .image, none⟩, ⟨pixel, .pixel, some image⟩]
    symbols := []
    byName := [] }

def scope? (t : SymbolTable) (s : ScopeId) : Option Scope := t.scopes[s]?

def symbol? (t : SymbolTable) (id : SymbolId) : Option Symbol := t.symbols[id]?

def kind? (t : SymbolTable) (id : SymbolId) : Option SymbolKind := (t.symbol? id).map Symbol.kind

/-- Add a scope, given its number and where numbering goes on. -/
def addScope (t : SymbolTable) (parent : ScopeId) (kind : ScopeKind) (new : ScopeId × IdAllocator) :
    SymbolTable × ScopeId :=
  ({ t with ids := new.2, scopes := t.scopes ++ [⟨new.1, kind, some parent⟩] }, new.1)

def pushScope (t : SymbolTable) (parent : ScopeId) (kind : ScopeKind) : SymbolTable × ScopeId :=
  t.addScope parent kind t.ids.allocScope

def pushScopeIn (w : Words) (t : SymbolTable) (parent : ScopeId) (kind : ScopeKind) :
    Option (SymbolTable × ScopeId) :=
  (t.ids.allocScopeIn w).map (t.addScope parent kind)

def idOf? (t : SymbolTable) (scope : ScopeId) (name : String) : Option SymbolId :=
  t.byName.lookup (scope, name)

/-- A name that is already there keeps its symbol, and a different kind is a conflict. -/
def redeclare (t : SymbolTable) (id : SymbolId) (name : String) (kind : SymbolKind) :
    SymbolTable × SymbolId × Option KindConflict :=
  let declared := (t.kind? id).filter (· ≠ kind)
  (t, id, declared.map fun declared => ⟨name, declared, kind⟩)

/-- Add a symbol, given its number and where numbering goes on. -/
def addSymbol (t : SymbolTable) (scope : ScopeId) (name : String) (kind : SymbolKind) (span : Span)
    (new : SymbolId × IdAllocator) : SymbolTable × SymbolId × Option KindConflict :=
  let table :=
    { t with
      ids := new.2
      symbols := t.symbols ++ [⟨new.1, name, kind, scope, span⟩]
      byName := ((scope, name), new.1) :: t.byName }
  (table, new.1, none)

def declare (t : SymbolTable) (scope : ScopeId) (name : String) (kind : SymbolKind) (span : Span) :
    SymbolTable × SymbolId × Option KindConflict :=
  match t.idOf? scope name with
  | some id => t.redeclare id name kind
  | none => t.addSymbol scope name kind span t.ids.allocSymbol

def declareIn (w : Words) (t : SymbolTable) (scope : ScopeId) (name : String) (kind : SymbolKind)
    (span : Span) : Option (SymbolTable × SymbolId × Option KindConflict) :=
  match t.idOf? scope name with
  | some id => some (t.redeclare id name kind)
  | none => (t.ids.allocSymbolIn w).map (t.addSymbol scope name kind span)

/-- A scope and those around it, the nearest first, at most as many as the bound. -/
def chain (t : SymbolTable) : Nat → ScopeId → List ScopeId
  | 0, _ => []
  | n + 1, s =>
    s :: match (t.scope? s).bind Scope.parent with
      | some p => t.chain n p
      | none => []

/-- A scope and those around it. A parent may have a larger number and may still be missing, so the
chain passes at most every scope that is there and one that is not. -/
def ancestors (t : SymbolTable) (s : ScopeId) : List ScopeId := t.chain (t.scopes.length + 1) s

def resolveId? (t : SymbolTable) (scope : ScopeId) (name : String) : Option SymbolId :=
  (t.ancestors scope).findSome? fun s => t.idOf? s name

def resolve (t : SymbolTable) (scope : ScopeId) (name : String) : Option Symbol :=
  (t.resolveId? scope name).bind t.symbol?

def findAny (t : SymbolTable) (name : String) (kind : SymbolKind) : Option Symbol :=
  t.symbols.find? fun s => s.kind = kind && s.name = name

def symbolsIn (t : SymbolTable) (scope : ScopeId) : List Symbol :=
  t.symbols.filter fun s => s.scope = scope

def ofKind (t : SymbolTable) (kind : SymbolKind) : List Symbol :=
  t.symbols.filter fun s => s.kind = kind

/-- One line a symbol: number, scope, kind and name. -/
def listing (t : SymbolTable) : String :=
  String.join (t.symbols.map fun s => s!"sym{s.id} scope{s.scope} {s.kind.describe} {s.name}\n")

end SymbolTable

end RasterScript
