import RasterScript.Binding
import RasterScript.Code

/-! From a script with bound names to code. Every symbol gets its slot at its first use. -/
namespace RasterScript.Code

/-- Why a script cannot be lowered. A script whose names were bound without an error has no such
fault. -/
inductive Fault where
  | noSymbol (name : String)
  | notScalar (name : String) (kind : SymbolKind)
  | writeToSource (name : String)
  | listInScalarPosition
  | unresolvedName (name : String)
  | unresolvedFunction (name : String)
  | expectedList
  | notSource (name : String)
  | access (fault : Access.Fault)
deriving DecidableEq, Repr

namespace Fault

def cause : Fault → String
  | noSymbol name => s!"no symbol for '{name}'"
  | notScalar name kind => s!"'{name}' is a {kind.describe}, not a scalar"
  | writeToSource name => s!"write to source image '{name}'"
  | listInScalarPosition => "list in scalar position"
  | unresolvedName name => s!"unresolved name '{name}'"
  | unresolvedFunction name => s!"unresolved function '{name}'"
  | expectedList => "expected a list"
  | notSource name => s!"'{name}' is not a source image"
  | access fault => fault.message

def message (f : Fault) : String := "internal: " ++ f.cause

end Fault

def Fault.diagnostic (f : Located Fault) : Diagnostic :=
  ⟨some "E0900", .error, f.span, f.what.message⟩

/-- The slots given out so far, by symbol, with their names. -/
structure Slots where
  scalars : List (SymbolId × Slot)
  lists : List (SymbolId × Nat)
  imageNames : List String
  pixelNames : List String
  listNames : List String
  faults : List (Located Fault)

def Slots.empty : Slots := ⟨[], [], [], [], [], []⟩

abbrev Lower := StateM Slots

namespace Lower

def fault (span : Span) (f : Fault) : Lower Unit :=
  modify fun s => { s with faults := s.faults ++ [⟨f, span⟩] }

def imageIndex? (b : Binding) (kind : SymbolKind) (id : SymbolId) : Option Nat :=
  (b.table.ofKind kind).findIdx? fun s => s.id = id

def symbolOf (b : Binding) (span : Span) (name : String) : Lower (Option Symbol) := do
  match (b.symbolAt? span).bind b.table.symbol? with
  | some s => return some s
  | none =>
    fault span (.noSymbol name)
    return none

def newImageSlot (id : SymbolId) (name : String) : Lower Slot := do
  let slot := Slot.image (← get).imageNames.length
  modify fun s =>
    { s with scalars := (id, slot) :: s.scalars, imageNames := s.imageNames ++ [name] }
  return slot

def newPixelSlot (id : SymbolId) (name : String) : Lower Slot := do
  let slot := Slot.pixel (← get).pixelNames.length
  modify fun s =>
    { s with scalars := (id, slot) :: s.scalars, pixelNames := s.pixelNames ++ [name] }
  return slot

def inImageScope (b : Binding) (s : Symbol) : Bool :=
  (b.table.scope? s.scope).any fun scope => scope.kind = .image

/-- The slot of a scalar symbol, a new one at its first use. -/
def scalarSlot (b : Binding) (span : Span) (name : String) : Lower (Option Slot) := do
  match ← symbolOf b span name with
  | none => return none
  | some s =>
    match (← get).scalars.lookup s.id with
    | some slot => return some slot
    | none =>
      match s.kind with
      | .scalar =>
        if inImageScope b s then return some (← newImageSlot s.id s.name)
        else return some (← newPixelSlot s.id s.name)
      | .loopVar => return some (← newPixelSlot s.id s.name)
      | kind =>
        fault span (.notScalar name kind)
        return none

/-- The slot of a list symbol, a new one at its first use. -/
def listSlot (s : Symbol) : Lower Nat := do
  match (← get).lists.lookup s.id with
  | some slot => return slot
  | none =>
    let slot := (← get).listNames.length
    modify fun st =>
      { st with lists := (s.id, slot) :: st.lists, listNames := st.listNames ++ [s.name] }
    return slot

/-- What stands in for an expression at fault. -/
def missing : Expr := .const Number.nan

def name (b : Binding) (id : Ident) : Lower Expr := do
  match b.referent? id.span with
  | some (.constant v) => return .const v
  | some (.symbol s) =>
    match imageIndex? b .sourceImage s with
    | some image => return .read image none none
    | none =>
      match ← scalarSlot b id.span id.name with
      | some slot => return .load slot
      | none => return missing
  | none =>
    fault id.span (.unresolvedName id.name)
    return missing

def listSymbol? (b : Binding) : RasterScript.Expr → Option Symbol
  | .name id _ =>
    ((b.symbolAt? id.span).bind b.table.symbol?).filter fun s => s.kind = .list
  | _ => none

def imageRead (b : Binding) (id : Ident) (selectors : List (Selector (Lower Expr))) :
    Lower Expr := do
  match (b.symbolAt? id.span).bind (imageIndex? b .sourceImage) with
  | none =>
    fault id.span (.notSource id.name)
    return missing
  | some image =>
    match Access.ofSelectors selectors with
    | .error f =>
      fault f.span (.access f.what)
      return missing
    | .ok access =>
      let band ← access.band.mapM fun e => e
      let point ← access.position.mapM fun (x, y) => do
        let px ← x.value
        let py ← y.value
        return (⟨⟨x.relative, px⟩, ⟨y.relative, py⟩⟩ : Point Expr)
      return .read image band point

mutual

def expr (b : Binding) : RasterScript.Expr → Lower Expr
  | .number v _ => return .const v
  | .name id _ => name b id
  | .call f args _ => do
    match b.builtinAt? f.span with
    | none =>
      fault f.span (.unresolvedFunction f.name)
      return missing
    | some (.position p) => return .position p
    | some (.scalar g) => return .call g (← exprs b args)
    | some (.statistic g) => return .statistic g (← arguments b args)
  | .image id selectors _ => imageRead b id (groups b selectors)
  | .list _ span => do
    fault span .listInScalarPosition
    return missing
  | .unary op a _ => return .unary op (← expr b a)
  | .binary op l r _ => return .binary op (← expr b l) (← expr b r)
  | .cond t y n _ => return .select (← expr b t) (← expr b y) (← expr b n)

def exprs (b : Binding) : List RasterScript.Expr → Lower (List Expr)
  | [] => return []
  | e :: es => return (← expr b e) :: (← exprs b es)

/-- An argument of a statistic: a list, or one value. -/
def argument (b : Binding) : RasterScript.Expr → Lower (Argument Expr)
  | .list items _ => return .many (.literal (← exprs b items))
  | e => do
    match listSymbol? b e with
    | some s => return .many (.slot (← listSlot s))
    | none => return .one (← expr b e)

def arguments (b : Binding) : List RasterScript.Expr → Lower (List (Argument Expr))
  | [] => return []
  | e :: es => return (← argument b e) :: (← arguments b es)

/-- The groups of an image read, with the code of each coordinate still to come. -/
def groups (b : Binding) : List (Selector RasterScript.Expr) → List (Selector (Lower Expr))
  | [] => []
  | s :: ss => group b s :: groups b ss

def group (b : Binding) : Selector RasterScript.Expr → Selector (Lower Expr)
  | ⟨cs, span⟩ => ⟨coords b cs, span⟩

def coords (b : Binding) : List (Coord RasterScript.Expr) → List (Coord (Lower Expr))
  | [] => []
  | c :: cs => coord b c :: coords b cs

def coord (b : Binding) : Coord RasterScript.Expr → Coord (Lower Expr)
  | ⟨relative, value, span⟩ => ⟨relative, expr b value, span⟩

end

def list (b : Binding) (e : RasterScript.Expr) : Lower (Items Expr) := do
  match e with
  | .list items _ => return .literal (← exprs b items)
  | e =>
    match listSymbol? b e with
    | some s => return .slot (← listSlot s)
    | none =>
      fault e.span .expectedList
      return .literal []

def assign (b : Binding) (target : Ident) (op : AssignOp) (value : RasterScript.Expr) :
    Lower (List Stmt) := do
  match ← symbolOf b target.span target.name with
  | none => return []
  | some s =>
    match s.kind with
    | .destImage =>
      match imageIndex? b .destImage s.id with
      | none => return []
      | some image => return [.write image (← expr b value)]
    | .list =>
      let slot ← listSlot s
      return [.storeList slot (← list b value)]
    | .scalar | .loopVar =>
      match ← scalarSlot b target.span target.name with
      | none => return []
      | some slot =>
        let right ← expr b value
        match op.binary? with
        | some op => return [.store slot (.binary op (.load slot) right)]
        | none => return [.store slot right]
    | .sourceImage =>
      fault target.span (.writeToSource target.name)
      return []

mutual

/-- The code of a statement. Blocks leave no trace. -/
def stmt (b : Binding) : RasterScript.Stmt → Lower (List Stmt)
  | .assign target op value _ => assign b target op value
  | .cond test yes no _ => return [.cond (← expr b test) (← stmt b yes) (← other b no)]
  | .loop kind test body _ => return [.loop kind (← expr b test) (← stmt b body)]
  | .foreach var source body _ => do
    match ← scalarSlot b var.span var.name with
    | none => return []
    | some slot =>
      match source with
      | .range low high =>
        return [.foreachInt slot (← expr b low) (← expr b high) (← stmt b body)]
      | .list items => return [.foreachItem slot (← list b items) (← stmt b body)]
  | .block body _ => stmts b body
  | .breakIf test _ => return [.breakIf (← expr b test)]
  | .leave _ => return [.leave]

def other (b : Binding) : Option RasterScript.Stmt → Lower (List Stmt)
  | none => return []
  | some s => stmt b s

def stmts (b : Binding) : List RasterScript.Stmt → Lower (List Stmt)
  | [] => return []
  | s :: ss => return (← stmt b s) ++ (← stmts b ss)

end

def initValue (b : Binding) (v : NamedValue) : Lower (List Stmt) := do
  let value ← expr b v.value
  match ← scalarSlot b v.ident.span v.ident.name with
  | some slot => return [.store slot value]
  | none => return []

def initValues (b : Binding) : List NamedValue → Lower (List Stmt)
  | [] => return []
  | v :: vs => return (← initValue b v) ++ (← initValues b vs)

def init (b : Binding) : List Item → Lower (List Stmt)
  | [] => return []
  | .init values _ :: items => return (← initValues b values) ++ (← init b items)
  | _ :: items => init b items

def body (b : Binding) : List Item → Lower (List Stmt)
  | [] => return []
  | .stmt s :: items => return (← stmt b s) ++ (← body b items)
  | _ :: items => body b items

end Lower

/-- Lower a script with bound names: code, or the faults that prevent it. -/
def ofScript (script : Script) (b : Binding) : Except (List (Located Fault)) Code :=
  let ((init, body), slots) := (do
    let init ← Lower.init b script.items
    let body ← Lower.body b script.items
    return (init, body) : Lower (List Stmt × List Stmt)).run .empty
  if slots.faults.isEmpty then
    .ok
      { sources := (b.table.ofKind .sourceImage).map Symbol.name
        destinations := (b.table.ofKind .destImage).map Symbol.name
        imageSlots := slots.imageNames
        pixelSlots := slots.pixelNames
        listSlots := slots.listNames
        init := init
        body := body
        outside := b.outside }
  else .error slots.faults

end RasterScript.Code
