import RasterScript.Proofs.Binding.Table

/-! What it means that the names of a script are bound: each name has an entry for its place, and
the entry is what the loops around the place and the table say. -/
namespace RasterScript.Binding

open SymbolTable (Loops isGlobal)

/-- A later binding knows all that an earlier one does. -/
structure Le (b c : Binding) : Prop where
  table : SymbolTable.Extends b.table c.table
  names : ∀ p ∈ b.names, p ∈ c.names
  calls : ∀ p ∈ b.calls, p ∈ c.calls
  outside : b.outside.isSome → c.outside.isSome

theorem Le.refl (b : Binding) : Le b b := ⟨.refl _, fun _ h => h, fun _ h => h, id⟩

theorem Le.trans {b c d : Binding} (h : Le b c) (k : Le c d) : Le b d where
  table := h.table.trans k.table
  names p hp := k.names p (h.names p hp)
  calls p hp := k.calls p (h.calls p hp)
  outside ho := k.outside (h.outside ho)

/-- A name that stands for a symbol outside all loops. -/
structure Global (b : Binding) (loops : Loops) (id : Ident) (s : Symbol) : Prop where
  free : loops.lookup id.name = none
  mem : s ∈ b.table.symbols
  global : isGlobal s
  name : s.name = id.name
  noted : (id.span, .symbol s.id) ∈ b.names

/-- A name that stands for one value. -/
inductive ScalarName (b : Binding) (loops : Loops) (id : Ident) : Prop where
  | constant {v} : constant? id.name = some v → (id.span, .constant v) ∈ b.names →
      ScalarName b loops id
  | loop {s} : constant? id.name = none → loops.lookup id.name = some s →
      (id.span, .symbol s) ∈ b.names → ScalarName b loops id
  | scalar {s} : constant? id.name = none → Global b loops id s → s.kind = .scalar →
      ScalarName b loops id
  | source {s} : constant? id.name = none → Global b loops id s → s.kind = .sourceImage →
      ScalarName b loops id

/-- A name that stands for a list. -/
inductive ListName (b : Binding) (loops : Loops) (id : Ident) : Prop where
  | mk {s} : constant? id.name = none → Global b loops id s → s.kind = .list → ListName b loops id

mutual

/-- An expression that stands for one value. -/
inductive BoundScalar (b : Binding) (loops : Loops) : Expr → Prop where
  | number {v span} : BoundScalar b loops (.number v span)
  | name {id span} : ScalarName b loops id → BoundScalar b loops (.name id span)
  | call {f args span g} : Builtin.ofName? f.name = some g → (f.span, g) ∈ b.calls →
      g.accepts args.length → BoundArguments b loops g.takesLists args →
      BoundScalar b loops (.call f args span)
  | image {id selectors span s access} : Global b loops id s → s.kind = .sourceImage →
      Access.ofSelectors selectors = .ok access → BoundGroups b loops selectors →
      BoundScalar b loops (.image id selectors span)
  | unary {op a span} : BoundScalar b loops a → BoundScalar b loops (.unary op a span)
  | binary {op l r span} : BoundScalar b loops l → BoundScalar b loops r →
      BoundScalar b loops (.binary op l r span)
  | cond {t y n span} : BoundScalar b loops t → BoundScalar b loops y → BoundScalar b loops n →
      BoundScalar b loops (.cond t y n span)

/-- An expression that stands for a list. -/
inductive BoundList (b : Binding) (loops : Loops) : Expr → Prop where
  | literal {items span} : BoundScalars b loops items → BoundList b loops (.list items span)
  | name {id span} : ListName b loops id → BoundList b loops (.name id span)

/-- The arguments of a call; lists only where they may stand. -/
inductive BoundArguments (b : Binding) (loops : Loops) : Bool → List Expr → Prop where
  | nil {lists} : BoundArguments b loops lists []
  | one {lists e es} : BoundScalar b loops e → BoundArguments b loops lists es →
      BoundArguments b loops lists (e :: es)
  | many {e es} : BoundList b loops e → BoundArguments b loops true es →
      BoundArguments b loops true (e :: es)

inductive BoundScalars (b : Binding) (loops : Loops) : List Expr → Prop where
  | nil : BoundScalars b loops []
  | cons {e es} : BoundScalar b loops e → BoundScalars b loops es →
      BoundScalars b loops (e :: es)

inductive BoundGroups (b : Binding) (loops : Loops) : List (Selector Expr) → Prop where
  | nil : BoundGroups b loops []
  | cons {s ss} : BoundCoords b loops s.coords → BoundGroups b loops ss →
      BoundGroups b loops (s :: ss)

inductive BoundCoords (b : Binding) (loops : Loops) : List (Coord Expr) → Prop where
  | nil : BoundCoords b loops []
  | cons {c cs} : BoundScalar b loops c.value → BoundCoords b loops cs →
      BoundCoords b loops (c :: cs)

end

/-- An expression of a shape. -/
def BoundExpr (b : Binding) (loops : Loops) (e : Expr) : Shape → Prop
  | .scalar => BoundScalar b loops e
  | .list => BoundList b loops e

inductive BoundSource (b : Binding) (loops : Loops) : Source → Prop where
  | list {e} : BoundList b loops e → BoundSource b loops (.list e)
  | range {low high} : BoundScalar b loops low → BoundScalar b loops high →
      BoundSource b loops (.range low high)

/-- What may be assigned to a symbol. -/
inductive Assignable : SymbolKind → AssignOp → Shape → Prop where
  | scalar {op} : Assignable .scalar op .scalar
  | list : Assignable .list .set .list
  | image : Assignable .destImage .set .scalar

mutual

/-- A statement inside the given loops. -/
inductive BoundStmt (b : Binding) : Loops → Stmt → Prop where
  | assign {loops target op value span s shape} : BoundExpr b loops value shape →
      constant? target.name = none → Global b loops target s → Assignable s.kind op shape →
      BoundStmt b loops (.assign target op value span)
  | cond {loops test yes no span} : BoundScalar b loops test → BoundStmt b loops yes →
      BoundElse b loops no → BoundStmt b loops (.cond test yes no span)
  | loop {loops kind test body span} : BoundScalar b loops test → BoundStmt b loops body →
      BoundStmt b loops (.loop kind test body span)
  | foreach {loops var source body span id s} : BoundSource b loops source →
      (var.span, .symbol id) ∈ b.names → b.table.symbol? id = some s → s.kind = .loopVar →
      (∀ p ∈ loops, p.2 ≠ id) → BoundStmt b ((var.name, id) :: loops) body →
      BoundStmt b loops (.foreach var source body span)
  | block {loops body span} : BoundStmts b loops body → BoundStmt b loops (.block body span)
  | breakIf {loops test span} : BoundScalar b loops test → BoundStmt b loops (.breakIf test span)
  | leave {loops span} : BoundStmt b loops (.leave span)

inductive BoundElse (b : Binding) : Loops → Option Stmt → Prop where
  | none {loops} : BoundElse b loops none
  | some {loops s} : BoundStmt b loops s → BoundElse b loops (some s)

inductive BoundStmts (b : Binding) : Loops → List Stmt → Prop where
  | nil {loops} : BoundStmts b loops []
  | cons {loops s ss} : BoundStmt b loops s → BoundStmts b loops ss → BoundStmts b loops (s :: ss)

end

/-- An entry of an `init` block. -/
structure BoundInit (b : Binding) (v : NamedValue) : Prop where
  value : BoundScalar b [] v.value
  plain : constant? v.ident.name = none
  target : ∃ s, Global b [] v.ident s ∧ s.kind = .scalar ∧ s.scope = SymbolTable.imageScope

/-- An item of a script; declarations of images and options leave nothing to bind. -/
inductive BoundItem (b : Binding) : Item → Prop where
  | images {decls span} : BoundItem b (.images decls span)
  | options {values span} : BoundItem b (.options values span)
  | init {values span} : (∀ v ∈ values, BoundInit b v) → BoundItem b (.init values span)
  | stmt {s} : BoundStmt b [] s → BoundItem b (.stmt s)

end RasterScript.Binding
