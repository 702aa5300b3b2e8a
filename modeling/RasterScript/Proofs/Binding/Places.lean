import RasterScript.Proofs.Binding.Walk

/-! The places that a walk notes: each name and each call of a script at most once. -/
namespace RasterScript.Binding

variable {α β : Type}

/-- A step that notes names and calls at most at the given places. -/
def Keeping (spans : List Span) (x : Walk α) : Prop := ∀ a, Keeps spans a (x.run a).2

section Keeping

variable {spans more : List Span} {x : Walk α} {f : α → Walk β}

theorem Keeping.bind (hx : Keeping spans x) (hf : ∀ v, Keeping more (f v)) :
    Keeping (spans ++ more) (x >>= f) :=
  fun a => (hx a).trans (hf _ _)

theorem Keeping.weaken (hx : Keeping spans x) (h : spans.Subperm more) : Keeping more x :=
  fun a => (hx a).weaken h

theorem Keeping.nil (hx : Keeping [] x) : Keeping spans x := hx.weaken (List.nil_sublist _).subperm

theorem Keeping.pure (v : α) : Keeping [] (pure v : Walk α) := fun a => .refl a

theorem Keeping.last (hx : Keeping spans x) (hf : ∀ v, Keeping [] (f v)) :
    Keeping spans (x >>= f) := by
  simpa using hx.bind hf

theorem Keeping.symbols {f : SymbolTable → Walk β} (h : ∀ t, Keeping spans (f t)) :
    Keeping spans (symbols >>= f) :=
  fun a => h _ a

theorem Reads.keeping {P : SymbolTable → α → Binding → Prop} (h : ∀ t, Reads t spans x (P t)) :
    Keeping spans x :=
  fun a => (h _ a rfl).1

theorem Keeping.unless {p : Prop} [Decidable p] {span : Span} {fault : Fault}
    (h : fault.level = .error) : Keeping [] (if p then report span fault else Pure.pure ()) := by
  split
  · exact Reads.keeping fun _ => report_reads h
  · exact .pure ()

/-- A step that leaves names, calls, options and faults alone. -/
theorem Keeping.modify {g : Analysis → Analysis} (hf : ∀ a, (g a).faults = a.faults)
    (hn : ∀ a, (g a).binding.names = a.binding.names)
    (hc : ∀ a, (g a).binding.calls = a.binding.calls)
    (ho : ∀ a, (g a).binding.outside = a.binding.outside) : Keeping [] (modify g : Walk Unit) := by
  intro a
  show Keeps [] a (g a)
  refine ⟨by simp [hf], by simp [hn], by simp [hc], fun p => ?_, by simp [ho]⟩
  simp [Analysis.places, hn, hc]

/-- What a declaration makes of the state. -/
theorem declare_run (scope : ScopeId) (name : String) (kind : SymbolKind) (span : Span)
    (a : Analysis) :
    (declare scope name kind span).run a =
      let (t, id, conflict) := a.binding.table.declare scope name kind span
      (id, { a with
        binding.table := t
        faults := a.faults ++ (conflict.map fun c => ⟨.kindConflict c, span⟩).toList }) := by
  simp only [declare, symbols, bind_assoc, pure_bind, StateT.run_bind, StateT.run_get]
  obtain ⟨t, id, conflict⟩ := a.binding.table.declare scope name kind span
  cases conflict with
  | none =>
    simp only [Option.map_none, Option.toList_none, List.append_nil]
    rfl
  | some c => rfl

theorem declare_keeping (scope : ScopeId) (name : String) (kind : SymbolKind) (span : Span) :
    Keeping [] (declare scope name kind span) := by
  intro a
  rw [declare_run]
  exact ⟨List.prefix_append _ _, fun _ h => h, fun _ h => h, fun _ => Nat.le_add_left _ _, id⟩

variable {c : Context}

private theorem expr_keeping (e : Expr) : Keeping e.names (expr c e) :=
  Reads.keeping fun t => @expr_reads t [] c e

theorem scalar_keeping (e : Expr) : Keeping e.names (scalar c e) :=
  (expr_keeping e).last fun _ => Reads.keeping fun _ => needScalar_reads _ _

private theorem assignTo_keeping (target : Ident) (op : AssignOp) (shape : Shape) (span : Span)
    (s : Symbol) : Keeping [] (assignTo c target op shape span s) := by
  rw [assignTo]
  split
  · exact Reads.keeping fun _ => report_reads rfl
  · exact Reads.keeping fun _ => report_reads rfl
  · refine Keeping.last (Keeping.modify ?_ ?_ ?_ ?_) fun _ => ?_
    iterate 4 exact fun _ => rfl
    split
    · exact Reads.keeping fun _ => report_reads rfl
    · split
      · exact Reads.keeping fun _ => report_reads rfl
      · exact .unless rfl
  · split
    · exact Reads.keeping fun _ => report_reads rfl
    · exact (declare_keeping _ _ _ _).last fun _ => .pure ()

/-- What an assignment does once the shape of its value is known. -/
def assignValue (c : Context) (target : Ident) (op : AssignOp) (shape : Shape) (span : Span) :
    Walk Unit := do
  if (constant? target.name).isSome then report target.span (.assignConstant target.name)
  else
    match (← symbols).resolve c.scope target.name with
    | none =>
      if op ≠ .set then report target.span (.undefined target.name)
      else
        let id ← declare SymbolTable.pixelScope target.name shape.kind target.span
        bindName target.span (.symbol id)
    | some s =>
      bindName target.span (.symbol s.id)
      assignTo c target op shape span s

theorem assign_eq (target : Ident) (op : AssignOp) (value : Expr) :
    assign c target op value = (do assignValue c target op (← expr c value) value.span) := rfl

theorem assignValue_keeping (target : Ident) (op : AssignOp) (shape : Shape) (span : Span) :
    Keeping [target.span] (assignValue c target op shape span) := by
  have hnote (r : Referent) : Keeping [target.span] (bindName target.span r) :=
    Reads.keeping fun _ => bindName_reads _ r
  rw [assignValue]
  split
  · exact .nil (Reads.keeping fun _ => report_reads rfl)
  · refine Keeping.symbols fun t => ?_
    split
    · split
      · exact .nil (Reads.keeping fun _ => report_reads rfl)
      · exact (declare_keeping _ _ _ _).bind fun id => hnote _
    · exact (hnote _).last fun _ => assignTo_keeping _ _ _ _ _

private theorem assign_keeping (target : Ident) (op : AssignOp) (value : Expr) :
    Keeping (target.span :: value.names) (assign c target op value) := by
  suffices Keeping (value.names ++ [target.span]) (assign c target op value) from
    this.weaken (List.perm_append_singleton _ _).subperm
  exact (expr_keeping value).bind fun _ => assignValue_keeping _ _ _ _

private theorem source_keeping : ∀ s : Source, Keeping s.names (source c s)
  | .list items => (expr_keeping items).last fun _ => .unless rfl
  | .range low high => (scalar_keeping low).bind fun _ => scalar_keeping high

/-- Open the scope of a loop and declare its variable there. -/
def openLoop (parent : ScopeId) (var : Ident) : Walk ScopeId := do
  let scope ← pushLoopScope parent
  let id ← declare scope var.name .loopVar var.span
  bindName var.span (.symbol id)
  return scope

theorem stmt_foreach (var : Ident) (items : Source) (body : Stmt) (span : Span) :
    stmt c (.foreach var items body span) = (do
      source c items
      let scope ← openLoop c.scope var
      stmt { c with scope := scope, inLoop := true } body) := by
  simp only [stmt, openLoop, bind_assoc, pure_bind]

theorem openLoop_keeping (parent : ScopeId) (var : Ident) :
    Keeping [var.span] (openLoop parent var) := by
  have hpush : Keeping [] (pushLoopScope parent) := fun a =>
    ⟨List.prefix_refl _, fun _ h => h, fun _ h => h, fun _ => Nat.le_add_left _ _, id⟩
  have hnote (r : Referent) : Keeping [var.span] (bindName var.span r) :=
    Reads.keeping fun _ => bindName_reads _ r
  exact hpush.bind fun _ => (declare_keeping _ _ _ _).bind fun _ => (hnote _).last fun _ => .pure _

mutual

theorem stmt_keeping : ∀ (s : Stmt) (c : Context), Keeping s.names (stmt c s)
  | .assign target op value _, c => assign_keeping target op value
  | .cond test yes no _, c =>
    (scalar_keeping test).bind fun _ => (stmt_keeping yes c).bind fun _ => other_keeping no c
  | .loop _ test body _, c => (scalar_keeping test).bind fun _ => stmt_keeping body _
  | .foreach var items body _, c => by
    rw [stmt_foreach]
    suffices Keeping (items.names ++ ([var.span] ++ body.names)) _ from
      this.weaken (List.perm_middle.subperm)
    exact (source_keeping items).bind fun _ => (openLoop_keeping _ _).bind fun _ =>
      stmt_keeping body _
  | .block body _, c => stmts_keeping body c
  | .breakIf test span, c => by
    rw [stmt]
    split
    · exact (Reads.keeping fun _ => report_reads rfl).bind fun _ => scalar_keeping test
    · exact scalar_keeping test
  | .leave span, c => by
    rw [stmt]
    split
    · exact .pure ()
    · exact Reads.keeping fun _ => report_reads rfl

theorem other_keeping : ∀ (s : Option Stmt) (c : Context), Keeping (elseNames s) (other c s)
  | none, _ => .pure ()
  | some s, c => stmt_keeping s c

theorem stmts_keeping : ∀ (ss : List Stmt) (c : Context), Keeping (stmtsNames ss) (stmts c ss)
  | [], _ => .pure ()
  | s :: ss, c => (stmt_keeping s c).bind fun _ => stmts_keeping ss c

end

end Keeping

end RasterScript.Binding
