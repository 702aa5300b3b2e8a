import RasterScript.Proofs.Binding.Scripts
import RasterScript.Proofs.Script.Parts

/-! Where the walk through a script reports its faults: at places of the script, or at its start. -/
namespace RasterScript

theorem Access.bandOf_fault_span {ε : Type} {s : Selector ε} {f : Located Fault}
    (h : bandOf s = .error f) : f.span = s.span ∨ ∃ c ∈ s.coords, f.span = c.span := by
  rw [bandOf] at h
  split at h
  · next c hcoords =>
    split at h
    · cases h
      exact .inr ⟨c, hcoords ▸ List.mem_cons_self, rfl⟩
    · cases h
  · cases h
    exact .inl rfl

theorem Access.pointOf_fault_span {ε : Type} {s : Selector ε} {f : Located Fault}
    (h : pointOf s = .error f) : f.span = s.span := by
  rw [pointOf] at h
  split at h
  · cases h
  · cases h
    rfl

/-- Where the groups after an image can be at fault. -/
theorem Access.fault_span {ε : Type} {ss : List (Selector ε)} {f : Located Fault}
    (h : ofSelectors ss = .error f) :
    ∃ s ∈ ss, f.span = s.span ∨ ∃ c ∈ s.coords, f.span = c.span := by
  rw [ofSelectors.eq_def] at h
  split at h
  · cases h
  · next s =>
    split at h
    · cases h
    · cases hb : bandOf s with
      | ok b =>
        rw [hb] at h
        cases h
      | error g =>
        rw [hb] at h
        cases h
        exact ⟨s, List.mem_cons_self, bandOf_fault_span hb⟩
  · next s p =>
    cases hb : bandOf s with
    | error g =>
      rw [hb] at h
      cases h
      exact ⟨s, List.mem_cons_self, bandOf_fault_span hb⟩
    | ok b =>
      cases hp : pointOf p with
      | ok q =>
        rw [hb, hp] at h
        cases h
      | error g =>
        rw [hb, hp] at h
        cases h
        exact ⟨p, List.mem_cons_of_mem _ List.mem_cons_self, .inl (pointOf_fault_span hp)⟩
  · next extra _ =>
    cases h
    exact ⟨extra, by simp, .inl rfl⟩

namespace Binding

open RasterScript.Part (Held held_name held_node held_append held_selectors)

/-- All faults and symbols so far stand at places with a property. -/
structure Marked (P : Span → Prop) (a : Analysis) : Prop where
  faults : ∀ f ∈ a.faults, P f.span
  symbols : ∀ s ∈ a.binding.table.symbols, P s.span

/-- A stretch of the walk reports and declares only at places with a property. -/
def Marks {α : Type} (P : Span → Prop) (x : Walk α) : Prop := ∀ a, Marked P a → Marked P (x.run a).2

section Rules

variable {α β : Type} {P : Span → Prop} {x : Walk α} {f : α → Walk β} {span : Span}

theorem Marks.pure (v : α) : Marks P (pure v : Walk α) := fun _ h => h

theorem Marks.bind (hx : Marks P x) (hf : ∀ v, Marks P (f v)) : Marks P (x >>= f) :=
  fun a h => hf _ _ (hx a h)

theorem Marks.symbols : Marks P symbols := fun _ h => h

theorem Marks.ite {p : Prop} [Decidable p] {y : Walk α} (hx : Marks P x) (hy : Marks P y) :
    Marks P (if p then x else y) := by
  split
  · exact hx
  · exact hy

theorem Marks.modify {g : Analysis → Analysis} (hf : ∀ a, (g a).faults = a.faults)
    (hs : ∀ a, (g a).binding.table.symbols = a.binding.table.symbols) :
    Marks P (modify g : Walk Unit) := by
  intro a h
  show Marked P (g a)
  exact ⟨hf a ▸ h.faults, hs a ▸ h.symbols⟩

theorem Marks.report (h : P span) (fault : Fault) : Marks P (report span fault) := fun _ ha =>
  ⟨List.forall_mem_append.mpr ⟨ha.faults, List.forall_mem_singleton.mpr h⟩, ha.symbols⟩

theorem Marks.unless {p : Prop} [Decidable p] {k : Unit → Walk β} {fault : Fault} (h : P span)
    (hk : ∀ u, Marks P (k u)) : Marks P (if p then Binding.report span fault >>= k else k ()) :=
  .ite (.bind (.report h fault) hk) (hk ())

theorem Marks.bindName (span : Span) (r : Referent) : Marks P (bindName span r) :=
  .modify (fun _ => rfl) fun _ => rfl

theorem Marks.bindCall (span : Span) (b : Builtin) : Marks P (bindCall span b) :=
  .modify (fun _ => rfl) fun _ => rfl

theorem Marks.declare (h : P span) (scope : ScopeId) (name : String) (kind : SymbolKind) :
    Marks P (declare scope name kind span) := by
  intro a ha
  rw [declare_run]
  cases hfound : a.binding.table.idOf? scope name with
  | some id =>
    simp only [SymbolTable.declare, hfound]
    refine ⟨List.forall_mem_append.mpr ⟨ha.faults, ?_⟩, ha.symbols⟩
    intro f hf
    obtain ⟨c, -, rfl⟩ := Option.map_eq_some_iff.mp (Option.mem_toList.mp hf)
    exact h
  | none =>
    simp only [SymbolTable.declare, hfound]
    refine ⟨List.forall_mem_append.mpr ⟨ha.faults, List.forall_mem_nil _⟩, ?_⟩
    exact List.forall_mem_append.mpr ⟨ha.symbols, List.forall_mem_singleton.mpr h⟩

theorem Marks.forM {f : α → Walk Unit} {l : List α} (h : ∀ v ∈ l, Marks P (f v)) :
    Marks P (l.forM f) := by
  induction l with
  | nil => exact .pure _
  | cons v l ih =>
    obtain ⟨hv, hl⟩ := List.forall_mem_cons.mp h
    exact .bind hv fun _ => ih hl

end Rules

section Expressions

variable {P : Span → Prop} {c : Context} {id : Ident}

private theorem undefined_marks (h : P id.span) : Marks P (undefined id) :=
  .bind .symbols fun _ => .ite (.report h _) (.report h _)

private theorem readSource_marks (h : P id.span) (s : SymbolId) : Marks P (readSource c s id) :=
  .unless h fun _ => .modify (fun _ => rfl) fun _ => rfl

private theorem nameShape_marks (h : P id.span) : Marks P (nameShape c id) := by
  rw [nameShape]
  split
  · exact .bind (.bindName _ _) fun _ => .pure _
  · refine .bind .symbols fun t => ?_
    split
    · exact .bind (undefined_marks h) fun _ => .pure _
    · refine .bind (.bindName _ _) fun _ => ?_
      split
      · exact .bind (readSource_marks h _) fun _ => .pure _
      · exact .bind (.report h _) fun _ => .pure _
      · exact .pure _
      · exact .pure _
      · exact .pure _

private theorem imageName_marks (h : P id.span) : Marks P (imageName c id) := by
  refine .bind .symbols fun t => ?_
  split
  · exact undefined_marks h
  · refine .bind (.bindName _ _) fun _ => ?_
    split
    · exact readSource_marks h _
    · exact .report h _
    · exact .report h _

private theorem callee_marks (h : P id.span) (count : Nat) : Marks P (callee c id count) := by
  rw [callee]
  split
  · exact .bind (.report h _) fun _ => .pure _
  · refine .bind (.bindCall _ _) fun _ => ?_
    split
    · exact .unless h fun _ => .unless h fun _ => .pure _
    · exact .unless h fun _ => .pure _

private theorem needScalar_marks {span : Span} (h : P span) (shape : Shape) :
    Marks P (needScalar shape span) :=
  .ite (.report h _) (.pure _)

private theorem checkAccess_marks {ss : List (Selector Expr)} (h : Held P (groupsParts ss)) :
    Marks P (checkAccess ss) := by
  rw [checkAccess]
  split
  · exact .pure _
  · next f hf =>
    refine .report ?_ _
    obtain ⟨s, hs, hspan | ⟨x, hx, hspan⟩⟩ := Access.fault_span hf
    · rw [hspan]
      exact (held_selectors h s hs).1
    · rw [hspan]
      exact (held_selectors h s hs).2 x hx

mutual

/-- An expression is at fault at places of its parts only. -/
theorem expr_marks : ∀ (e : Expr), Held P e.parts → Marks P (expr c e)
  | .number _ _, _ => by
    rw [expr]
    exact .pure _
  | .name id _, h => by
    rw [expr]
    exact nameShape_marks (held_name.mp h).1
  | .call f args _, h => by
    obtain ⟨hf, hargs⟩ := held_name.mp h
    rw [expr]
    exact .bind (callee_marks hf _) fun b => .bind (arguments_marks b args hargs) fun _ => .pure _
  | .image id ss _, h => by
    obtain ⟨hid, hss⟩ := held_name.mp h
    rw [expr]
    exact .bind (imageName_marks hid) fun _ => .bind (checkAccess_marks hss) fun _ =>
      .bind (groups_marks ss hss) fun _ => .pure _
  | .list items _, h => by
    rw [expr]
    exact .bind (listItems_marks items h) fun _ => .pure _
  | .unary _ a _, h => by
    obtain ⟨ha, hin, -⟩ := held_node.mp h
    rw [expr]
    exact .bind (expr_marks a hin) fun _ => .bind (needScalar_marks ha _) fun _ => .pure _
  | .binary _ a b _, h => by
    obtain ⟨ha, hina, h⟩ := held_node.mp h
    obtain ⟨hb, hinb, -⟩ := held_node.mp h
    rw [expr]
    exact .bind (expr_marks a hina) fun _ => .bind (needScalar_marks ha _) fun _ =>
      .bind (expr_marks b hinb) fun _ => .bind (needScalar_marks hb _) fun _ => .pure _
  | .cond t a b _, h => by
    obtain ⟨ht, hint, h⟩ := held_node.mp h
    obtain ⟨ha, hina, h⟩ := held_node.mp h
    obtain ⟨hb, hinb, -⟩ := held_node.mp h
    rw [expr]
    exact .bind (expr_marks t hint) fun _ => .bind (needScalar_marks ht _) fun _ =>
      .bind (expr_marks a hina) fun _ => .bind (needScalar_marks ha _) fun _ =>
      .bind (expr_marks b hinb) fun _ => .bind (needScalar_marks hb _) fun _ => .pure _

private theorem arguments_marks (b : Option Builtin) : ∀ (es : List Expr), Held P (exprsParts es) →
    Marks P (arguments c b es)
  | [], _ => by
    rw [arguments]
    exact .pure _
  | e :: es, h => by
    obtain ⟨he, hin, hes⟩ := held_node.mp h
    rw [arguments]
    refine .bind (expr_marks e hin) fun _ => ?_
    split
    · exact .unless he fun _ => arguments_marks _ es hes
    · exact arguments_marks _ es hes

private theorem listItems_marks :
    ∀ (es : List Expr), Held P (exprsParts es) → Marks P (listItems c es)
  | [], _ => by
    rw [listItems]
    exact .pure _
  | e :: es, h => by
    obtain ⟨he, hin, hes⟩ := held_node.mp h
    rw [listItems]
    exact .bind (expr_marks e hin) fun _ => .unless he fun _ => listItems_marks es hes

private theorem groups_marks : ∀ (ss : List (Selector Expr)), Held P (groupsParts ss) →
    Marks P (groups c ss)
  | [], _ => by
    rw [groups]
    exact .pure _
  | ⟨cs, _⟩ :: ss, h => by
    obtain ⟨-, hin, hss⟩ := held_node.mp h
    rw [groups, group]
    exact .bind (coords_marks cs hin) fun _ => groups_marks ss hss

private theorem coords_marks :
    ∀ (cs : List (Coord Expr)), Held P (coordsParts cs) → Marks P (coords c cs)
  | [], _ => by
    rw [coords]
    exact .pure _
  | ⟨_, value, _⟩ :: cs, h => by
    obtain ⟨-, hin, hcs⟩ := held_node.mp h
    obtain ⟨hvalue, hin, -⟩ := held_node.mp hin
    rw [coords, coord]
    exact .bind (.bind (expr_marks value hin) fun _ => needScalar_marks hvalue _) fun _ =>
      coords_marks cs hcs

end

end Expressions

section Statements

variable {P : Span → Prop} {c : Context}

private theorem scalar_marks {e : Expr} {ps : List Part} (h : Held P (e.part :: ps)) :
    Marks P (scalar c e) := by
  obtain ⟨he, hin, -⟩ := held_node.mp h
  exact .bind (expr_marks e hin) fun _ => needScalar_marks he _

private theorem assignTo_marks {target : Ident} (h : P target.span) {span : Span} (hvalue : P span)
    (op : AssignOp) (shape : Shape) (s : Symbol) : Marks P (assignTo c target op shape span s) := by
  rw [assignTo]
  split
  · exact .report h _
  · exact .report h _
  · refine .bind (.modify (fun _ => rfl) fun _ => rfl) fun _ => ?_
    split
    · exact .report h _
    · split
      · exact .report h _
      · exact .ite (.report hvalue _) (.pure _)
  · exact .ite (.report h _) (.bind (.declare h _ _ _) fun _ => .pure _)

private theorem assign_marks {target : Ident} {value : Expr} (h : Held P [.name target, value.part])
    (op : AssignOp) : Marks P (assign c target op value) := by
  obtain ⟨htarget, h⟩ := held_name.mp h
  obtain ⟨hvalue, hin, -⟩ := held_node.mp h
  refine .bind (expr_marks value hin) fun shape => .ite (.report htarget _) ?_
  refine .bind .symbols fun t => ?_
  split
  · exact .ite (.report htarget _) (.bind (.declare htarget _ _ _) fun _ => .bindName _ _)
  · exact .bind (.bindName _ _) fun _ => assignTo_marks htarget hvalue _ _ _

private theorem source_marks : ∀ {items : Source}, Held P items.parts → Marks P (source c items)
  | .list e, h => by
    obtain ⟨he, hin, -⟩ := held_node.mp h
    exact .bind (expr_marks e hin) fun _ => .ite (.report he _) (.pure _)
  | .range low high, h => by
    obtain ⟨hlow, hin, h⟩ := held_node.mp h
    exact .bind (scalar_marks (held_node.mpr ⟨hlow, hin, h⟩)) fun _ => scalar_marks h

private theorem openLoop_marks {var : Ident} (h : P var.span) (parent : ScopeId) :
    Marks P (openLoop parent var) := by
  have hpush : Marks P (pushLoopScope parent) := fun _ ha => ⟨ha.faults, ha.symbols⟩
  exact .bind hpush fun _ => .bind (.declare h _ _ _) fun _ => .bind (.bindName _ _) fun _ => .pure _

mutual

/-- A statement is at fault at its own place and at those of its parts only. -/
theorem stmt_marks (c : Context) : ∀ (s : Stmt), P s.span → Held P s.parts → Marks P (stmt c s)
  | .assign _ op _ _, _, h => by
    rw [stmt]
    exact assign_marks h op
  | .cond test yes no _, _, h => by
    obtain ⟨htest, hin, hrest⟩ := held_node.mp h
    obtain ⟨hyes, hyesin, hno⟩ := held_node.mp hrest
    rw [stmt]
    exact .bind (scalar_marks h) fun _ => .bind (stmt_marks c yes hyes hyesin) fun _ =>
      other_marks c no hno
  | .loop _ test body _, _, h => by
    obtain ⟨htest, hin, hrest⟩ := held_node.mp h
    obtain ⟨hbody, hbodyin, -⟩ := held_node.mp hrest
    rw [stmt]
    exact .bind (scalar_marks h) fun _ => stmt_marks _ body hbody hbodyin
  | .foreach var items body _, _, h => by
    obtain ⟨hvar, hrest⟩ := held_name.mp h
    obtain ⟨hitems, hrest⟩ := held_append.mp hrest
    obtain ⟨hbody, hbodyin, -⟩ := held_node.mp hrest
    rw [stmt_foreach]
    exact .bind (source_marks hitems) fun _ => .bind (openLoop_marks hvar _) fun _ =>
      stmt_marks _ body hbody hbodyin
  | .block body _, _, h => by
    rw [stmt]
    exact stmts_marks c body h
  | .breakIf test _, hs, h => by
    rw [stmt]
    exact .unless hs fun _ => scalar_marks h
  | .leave _, hs, _ => by
    rw [stmt]
    exact .ite (.pure _) (.report hs _)

private theorem other_marks (c : Context) :
    ∀ (s : Option Stmt), Held P (elseParts s) → Marks P (other c s)
  | none, _ => by
    rw [other]
    exact .pure _
  | some s, h => by
    obtain ⟨hs, hin, -⟩ := held_node.mp h
    rw [other]
    exact stmt_marks c s hs hin

private theorem stmts_marks (c : Context) : ∀ (ss : List Stmt), Held P (stmtsParts ss) →
    Marks P (stmts c ss)
  | [], _ => by
    rw [stmts]
    exact .pure _
  | s :: ss, h => by
    obtain ⟨hs, hin, hss⟩ := held_node.mp h
    rw [stmts]
    exact .bind (stmt_marks c s hs hin) fun _ => stmts_marks c ss hss

end

/-! ### Scripts -/

private theorem imageDecl_marks {d : ImageDecl} (h : P d.ident.span) : Marks P (imageDecl d) :=
  .ite (.report h _) (.bind (.declare h _ _ _) fun _ => .bindName _ _)

private theorem option_marks {v : NamedValue} (h : Held P v.parts) : Marks P (option v) := by
  obtain ⟨hid, h⟩ := held_name.mp h
  obtain ⟨hvalue, -, -⟩ := held_node.mp h
  rw [option]
  refine .ite (.report hid _) ?_
  split
  · exact .modify (fun _ => rfl) fun _ => rfl
  · exact .report hvalue _

private theorem initValue_marks {v : NamedValue} (h : Held P v.parts) : Marks P (initValue v) := by
  obtain ⟨hid, hvalue⟩ := held_name.mp h
  exact .bind (scalar_marks hvalue) fun _ =>
    .ite (.report hid _) (.bind (.declare hid _ _ _) fun _ => .bindName _ _)

private theorem declarations_marks : ∀ {i : Item}, Held P [i.part] → Marks P (declarations i)
  | .images decls _, h => by
    obtain ⟨-, hdecls, -⟩ := held_node.mp h
    refine .forM fun d hd => imageDecl_marks ?_
    obtain ⟨-, hident, -⟩ := held_node.mp (hdecls.of_mem (List.mem_map_of_mem hd))
    exact (held_name.mp hident).1
  | .options values _, h => by
    obtain ⟨-, hvalues, -⟩ := held_node.mp h
    exact .forM fun v hv => option_marks (hvalues.of_mem_flatMap hv)
  | .init _ _, _ => .pure _
  | .stmt _, _ => .pure _

private theorem initialisation_marks : ∀ {i : Item}, Held P [i.part] → Marks P (initialisation i)
  | .init values _, h => by
    obtain ⟨-, hvalues, -⟩ := held_node.mp h
    exact .forM fun v hv => initValue_marks (hvalues.of_mem_flatMap hv)
  | .images _ _, _ => .pure _
  | .options _ _, _ => .pure _
  | .stmt _, _ => .pure _

private theorem statement_marks : ∀ {i : Item}, Held P [i.part] → Marks P (statement i)
  | .stmt s, h => by
    obtain ⟨hs, hin, -⟩ := held_node.mp h
    exact stmt_marks _ s hs hin
  | .images _ _, _ => .pure _
  | .init _ _, _ => .pure _
  | .options _ _, _ => .pure _

private theorem finish_marks {start : Nat} (h : P (.point start)) : Marks P (finish start) := by
  refine .bind .symbols fun t => .unless h fun _ => ?_
  intro a ha
  refine ⟨List.forall_mem_append.mpr ⟨ha.faults, fun f hf => ?_⟩, ha.symbols⟩
  obtain ⟨s, hs, hunused⟩ := List.mem_filterMap.mp hf
  have hspan : f.span = s.span := by
    rw [unused?] at hunused
    grind
  rw [hspan]
  exact ha.symbols s hs

/-- The faults of a script stand at places of its parts, at its start, or at the start of the text
for an image that the caller brings. -/
theorem ofScript_faults {script : Script} (h : Held P script.parts) (hzero : P (.point 0))
    (hstart : P (.point script.span.start)) (images : List (String × ImageRole)) :
    ∀ f ∈ (ofScript script images).2, P f.span := by
  have hitem (i : Item) (hi : i ∈ script.items) : Held P [i.part] :=
    h.of_mem (List.mem_map_of_mem hi)
  have hwalk : Marks P (walk script images) :=
    .bind (.forM fun _ _ => .bind (.declare hzero _ _ _) fun _ => .pure _) fun _ =>
    .bind (.forM fun i hi => declarations_marks (hitem i hi)) fun _ =>
    .bind (.forM fun i hi => initialisation_marks (hitem i hi)) fun _ =>
    .bind (.forM fun i hi => statement_marks (hitem i hi)) fun _ => finish_marks hstart
  exact (hwalk .initial ⟨List.forall_mem_nil _, List.forall_mem_nil _⟩).faults

end Statements

end Binding

end RasterScript
