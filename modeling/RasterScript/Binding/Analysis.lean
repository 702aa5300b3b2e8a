import RasterScript.Binding

/-! The walk through a script that binds its names and checks how they are used. It always goes to
the end of the script. -/
namespace RasterScript.Binding

/-- What is known in the middle of the walk. -/
structure Analysis where
  binding : Binding
  faults : List (Located Fault)
  /-- Destinations that some statement assigns. -/
  assigned : List SymbolId
  /-- Sources that some expression reads. -/
  read : List SymbolId

def Analysis.initial : Analysis := ⟨⟨.initial, [], [], none⟩, [], [], []⟩

abbrev Walk := StateM Analysis

/-- Whether an expression stands for one value or for a list. -/
inductive Shape where
  | scalar
  | list
deriving DecidableEq, Repr

def Shape.kind : Shape → SymbolKind
  | scalar => .scalar
  | list => .list

structure Context where
  scope : ScopeId
  inInit : Bool
  inLoop : Bool

def Context.init : Context := ⟨SymbolTable.imageScope, true, false⟩

def Context.pixel : Context := ⟨SymbolTable.pixelScope, false, false⟩

def report (span : Span) (fault : Fault) : Walk Unit :=
  modify fun a => { a with faults := a.faults ++ [⟨fault, span⟩] }

def symbols : Walk SymbolTable := return (← get).binding.table

def bindName (span : Span) (r : Referent) : Walk Unit :=
  modify fun a => { a with binding.names := (span, r) :: a.binding.names }

def bindCall (span : Span) (f : Builtin) : Walk Unit :=
  modify fun a => { a with binding.calls := (span, f) :: a.binding.calls }

def declare (scope : ScopeId) (name : String) (kind : SymbolKind) (span : Span) :
    Walk SymbolId := do
  let (t, id, conflict) := (← symbols).declare scope name kind span
  modify fun a => { a with binding.table := t }
  if let some c := conflict then report span (.kindConflict c)
  return id

def pushLoopScope (parent : ScopeId) : Walk ScopeId := do
  let (t, scope) := (← symbols).pushScope parent .loop
  modify fun a => { a with binding.table := t }
  return scope

def undefined (id : Ident) : Walk Unit := do
  if ((← symbols).findAny id.name .loopVar).isSome then report id.span (.loopVarOutside id.name)
  else report id.span (.undefined id.name)

def readSource (c : Context) (symbol : SymbolId) (id : Ident) : Walk Unit := do
  if c.inInit then report id.span (.imageInInit id.name)
  modify fun a => { a with read := symbol :: a.read }

/-- A name in an expression. Constants come before variables. -/
def nameShape (c : Context) (id : Ident) : Walk Shape := do
  match constant? id.name with
  | some value =>
    bindName id.span (.constant value)
    return .scalar
  | none =>
    match (← symbols).resolve c.scope id.name with
    | none =>
      undefined id
      return .scalar
    | some s =>
      bindName id.span (.symbol s.id)
      match s.kind with
      | .sourceImage =>
        readSource c s.id id
        return .scalar
      | .destImage =>
        report id.span (.readDestination id.name)
        return .scalar
      | .list => return .list
      | .scalar | .loopVar => return .scalar

def imageName (c : Context) (id : Ident) : Walk Unit := do
  match (← symbols).resolve c.scope id.name with
  | none => undefined id
  | some s =>
    bindName id.span (.symbol s.id)
    match s.kind with
    | .sourceImage => readSource c s.id id
    | .destImage => report id.span (.readDestination id.name)
    | kind => report id.span (.notImage id.name kind)

/-- The function of a call: its number of arguments, and whether it may stand here. -/
def callee (c : Context) (id : Ident) (count : Nat) : Walk (Option Builtin) := do
  match Builtin.ofName? id.name with
  | none =>
    report id.span (.unknownFunction id.name)
    return none
  | some f =>
    bindCall id.span f
    if !f.accepts count then report id.span (.argumentCount f count)
    if let .position p := f then
      if c.inInit && p.isPixel then report id.span (.pixelInInit p)
    return some f

def needScalar (shape : Shape) (span : Span) : Walk Unit :=
  if shape = .list then report span .listAsScalar else pure ()

def checkAccess (selectors : List (Selector Expr)) : Walk Unit :=
  match Access.ofSelectors selectors with
  | .ok _ => pure ()
  | .error f => report f.span (.access f.what)

mutual

def expr (c : Context) : Expr → Walk Shape
  | .number _ _ => pure .scalar
  | .name id _ => nameShape c id
  | .call f args _ => do
    let builtin ← callee c f args.length
    arguments c builtin args
    return .scalar
  | .image id selectors _ => do
    imageName c id
    checkAccess selectors
    groups c selectors
    return .scalar
  | .list items _ => do
    listItems c items
    return .list
  | .unary _ a _ => do
    needScalar (← expr c a) a.span
    return .scalar
  | .binary _ a b _ => do
    needScalar (← expr c a) a.span
    needScalar (← expr c b) b.span
    return .scalar
  | .cond t a b _ => do
    needScalar (← expr c t) t.span
    needScalar (← expr c a) a.span
    needScalar (← expr c b) b.span
    return .scalar

/-- The arguments of a call; those of an unknown function are only bound. -/
def arguments (c : Context) (builtin : Option Builtin) : List Expr → Walk Unit
  | [] => pure ()
  | e :: es => do
    let shape ← expr c e
    if let some f := builtin then
      if shape = .list && !f.takesLists then report e.span (.listArgument f)
    arguments c builtin es

def listItems (c : Context) : List Expr → Walk Unit
  | [] => pure ()
  | e :: es => do
    if (← expr c e) = .list then report e.span .nestedList
    listItems c es

def groups (c : Context) : List (Selector Expr) → Walk Unit
  | [] => pure ()
  | s :: ss => do
    group c s
    groups c ss

def group (c : Context) : Selector Expr → Walk Unit
  | ⟨cs, _⟩ => coords c cs

def coords (c : Context) : List (Coord Expr) → Walk Unit
  | [] => pure ()
  | x :: xs => do
    coord c x
    coords c xs

def coord (c : Context) : Coord Expr → Walk Unit
  | ⟨_, value, _⟩ => do needScalar (← expr c value) value.span

end

def scalar (c : Context) (e : Expr) : Walk Unit := do
  needScalar (← expr c e) e.span

def assignTo (c : Context) (target : Ident) (op : AssignOp) (shape : Shape) (valueSpan : Span)
    (s : Symbol) : Walk Unit := do
  match s.kind with
  | .sourceImage => report target.span (.writeSource target.name)
  | .loopVar => report target.span (.assignLoopVar target.name)
  | .destImage =>
    modify fun a => { a with assigned := s.id :: a.assigned }
    if c.inLoop then report target.span (.destinationInLoop target.name)
    else if op ≠ .set then report target.span (.readDestination target.name)
    else if shape = .list then report valueSpan (.listToDestination target.name)
  | kind =>
    if kind = .list && op ≠ .set then report target.span (.compoundList target.name)
    else
      -- A second declaration finds the same symbol, or a conflict of kinds.
      let _ ← declare s.scope target.name shape.kind target.span

/-- An assignment. New variables belong to the pixel, also inside loops. -/
def assign (c : Context) (target : Ident) (op : AssignOp) (value : Expr) : Walk Unit := do
  let shape ← expr c value
  if (constant? target.name).isSome then report target.span (.assignConstant target.name)
  else
    match (← symbols).resolve c.scope target.name with
    | none =>
      if op ≠ .set then report target.span (.undefined target.name)
      else
        let id ← declare SymbolTable.pixelScope target.name shape.kind target.span
        bindName target.span (.symbol id)
    | some s =>
      bindName target.span (.symbol s.id)
      assignTo c target op shape value.span s

def source (c : Context) : Source → Walk Unit
  | .list items => do
    if (← expr c items) = .scalar then report items.span .foreachNeedsList
  | .range low high => do
    scalar c low
    scalar c high

mutual

def stmt (c : Context) : Stmt → Walk Unit
  | .assign target op value _ => assign c target op value
  | .cond test yes no _ => do
    scalar c test
    stmt c yes
    other c no
  | .loop _ test body _ => do
    scalar c test
    stmt { c with inLoop := true } body
  | .foreach var items body _ => do
    source c items
    let scope ← pushLoopScope c.scope
    let id ← declare scope var.name .loopVar var.span
    bindName var.span (.symbol id)
    stmt { c with scope := scope, inLoop := true } body
  | .block body _ => stmts c body
  | .breakIf test span => do
    if !c.inLoop then report span (.outsideLoop "breakif")
    scalar c test
  | .leave span => if c.inLoop then pure () else report span (.outsideLoop "break")

def other (c : Context) : Option Stmt → Walk Unit
  | none => pure ()
  | some s => stmt c s

def stmts (c : Context) : List Stmt → Walk Unit
  | [] => pure ()
  | s :: ss => do
    stmt c s
    stmts c ss

end

def imageKind : ImageRole → SymbolKind
  | .source => .sourceImage
  | .destination => .destImage

/-- An image that the caller brings; it has no place in the text. -/
def callerImage (image : String × ImageRole) : Walk Unit := do
  let _ ← declare SymbolTable.imageScope image.1 (imageKind image.2) (.point 0)

def imageDecl (d : ImageDecl) : Walk Unit := do
  if (constant? d.ident.name).isSome then report d.ident.span (.constantImage d.ident.name)
  else
    let id ← declare SymbolTable.imageScope d.ident.name (imageKind d.role) d.ident.span
    bindName d.ident.span (.symbol id)

/-- The value of a constant expression: numbers, named constants and signs. -/
def constantValue? : Expr → Option Float
  | .number v _ => some v
  | .name id _ => constant? id.name
  | .unary .neg a _ => (constantValue? a).map (- ·)
  | .unary .plus a _ => constantValue? a
  | _ => none

def option (v : NamedValue) : Walk Unit :=
  if v.ident.name ≠ "outside" then report v.ident.span (.unknownOption v.ident.name)
  else
    match constantValue? v.value with
    | some x => modify fun a => { a with binding.outside := some x }
    | none => report v.value.span .optionNotConstant

def initValue (v : NamedValue) : Walk Unit := do
  scalar .init v.value
  if (constant? v.ident.name).isSome then report v.ident.span (.assignConstant v.ident.name)
  else
    let id ← declare SymbolTable.imageScope v.ident.name .scalar v.ident.span
    bindName v.ident.span (.symbol id)

/-- Images and options come first, wherever they stand. -/
def declarations : Item → Walk Unit
  | .images decls _ => decls.forM imageDecl
  | .options values _ => values.forM option
  | _ => pure ()

def initialisation : Item → Walk Unit
  | .init values _ => values.forM initValue
  | _ => pure ()

def statement : Item → Walk Unit
  | .stmt s => stmt .pixel s
  | _ => pure ()

def unused? (a : Analysis) (s : Symbol) : Option (Located Fault) :=
  match s.kind with
  | .destImage => if a.assigned.contains s.id then none else some ⟨.neverAssigned s.name, s.span⟩
  | .sourceImage => if a.read.contains s.id then none else some ⟨.neverRead s.name, s.span⟩
  | _ => none

/-- What can only be said at the end of a script. -/
def finish (start : Nat) : Walk Unit := do
  if ((← symbols).ofKind .destImage).isEmpty then report (.point start) .noDestination
  modify fun a =>
    { a with faults := a.faults ++ a.binding.table.symbols.filterMap (unused? a) }

def walk (script : Script) (images : List (String × ImageRole)) : Walk Unit := do
  images.forM callerImage
  script.items.forM declarations
  script.items.forM initialisation
  script.items.forM statement
  finish script.span.start

/-- Bind the names of a script, given the images that its caller brings. -/
def ofScript (script : Script) (images : List (String × ImageRole)) :
    Binding × List (Located Fault) :=
  let (_, a) := (walk script images).run .initial
  (a.binding, a.faults)

end RasterScript.Binding
