import RasterScript.Code.Lowering
import RasterScript.Proofs.Binding.Reports
import RasterScript.Proofs.Code.Layout

/-! Where the lowering reports its faults: at places of the script, whatever its names are bound
to. -/
namespace RasterScript.Code

namespace Lower

open RasterScript.Part (Held held_name held_node held_append)

/-- A step of the lowering reports only at places with a property. -/
def Marks {α : Type} (P : Span → Prop) (x : Lower α) : Prop :=
  ∀ s : Slots, (∀ f ∈ s.faults, P f.span) → ∀ f ∈ (x.run s).2.faults, P f.span

section Rules

variable {α β : Type} {P : Span → Prop} {x : Lower α} {f : α → Lower β} {span : Span}

theorem Marks.pure (v : α) : Marks P (pure v : Lower α) := fun _ h => h

theorem Marks.bind (hx : Marks P x) (hf : ∀ v, Marks P (f v)) : Marks P (x >>= f) :=
  fun s h => hf _ _ (hx s h)

theorem Marks.get : Marks P (get : Lower Slots) := fun _ h => h

theorem Marks.modify {g : Slots → Slots} (hg : ∀ s, (g s).faults = s.faults) :
    Marks P (modify g : Lower Unit) := by
  intro s h
  show ∀ f ∈ (g s).faults, P f.span
  exact hg s ▸ h

theorem Marks.fault (h : P span) (f : Fault) : Marks P (fault span f) := fun _ hs =>
  List.forall_mem_append.mpr ⟨hs, List.forall_mem_singleton.mpr h⟩

theorem Marks.mapM {o : Option α} (h : ∀ v, o = some v → Marks P (f v)) : Marks P (o.mapM f) := by
  cases o with
  | none => exact .pure _
  | some v => exact .bind (h v rfl) fun _ => .pure _

end Rules

section Names

variable {P : Span → Prop} {b : Binding} {span : Span} {id : Ident}

private theorem symbolOf_marks (h : P span) (n : String) : Marks P (symbolOf b span n) := by
  rw [symbolOf]
  split
  · exact .pure _
  · exact .bind (.fault h _) fun _ => .pure _

private theorem newImageSlot_marks (i : SymbolId) (n : String) : Marks P (newImageSlot i n) :=
  .bind .get fun _ => .bind (.modify fun _ => rfl) fun _ => .pure _

private theorem newPixelSlot_marks (i : SymbolId) (n : String) : Marks P (newPixelSlot i n) :=
  .bind .get fun _ => .bind (.modify fun _ => rfl) fun _ => .pure _

private theorem scalarSlot_marks (h : P span) (n : String) : Marks P (scalarSlot b span n) := by
  refine .bind (symbolOf_marks h n) fun s => ?_
  split
  · exact .pure _
  · refine .bind .get fun st => ?_
    split
    · exact .pure _
    · split
      · split
        · exact .bind (newImageSlot_marks _ _) fun _ => .pure _
        · exact .bind (newPixelSlot_marks _ _) fun _ => .pure _
      · exact .bind (newPixelSlot_marks _ _) fun _ => .pure _
      · exact .bind (.fault h _) fun _ => .pure _

private theorem listSlot_marks (s : Symbol) : Marks P (listSlot s) := by
  refine .bind .get fun st => ?_
  split
  · exact .pure _
  · exact .bind .get fun _ => .bind (.modify fun _ => rfl) fun _ => .pure _

private theorem name_marks (h : P id.span) : Marks P (name b id) := by
  rw [name]
  split
  · exact .pure _
  · split
    · exact .pure _
    · refine .bind (scalarSlot_marks h _) fun slot => ?_
      split
      · exact .pure _
      · exact .pure _
  · exact .bind (.fault h _) fun _ => .pure _

/-- The groups stand at places with a property, and so does all that is reported in them. -/
structure MarkedGroup (P : Span → Prop) (s : Selector (Lower Expr)) : Prop where
  span : P s.span
  coords : ∀ c ∈ s.coords, P c.span ∧ Marks P c.value

private theorem imageRead_marks (h : P id.span) {ss : List (Selector (Lower Expr))}
    (hss : ∀ s ∈ ss, MarkedGroup P s) : Marks P (imageRead b id ss) := by
  rw [imageRead]
  split
  · exact .bind (.fault h _) fun _ => .pure _
  · split
    · next f hf =>
      refine .bind (.fault ?_ _) fun _ => .pure _
      obtain ⟨s, hs, hspan | ⟨c, hc, hspan⟩⟩ := Access.fault_span hf
      · exact hspan ▸ (hss s hs).span
      · exact hspan ▸ ((hss s hs).coords c hc).1
    · next access haccess =>
      have hvalues (x : Lower Expr) (hx : x ∈ Selector.values ss) : Marks P x := by
        obtain ⟨s, hs, hx⟩ := List.mem_flatMap.mp hx
        obtain ⟨c, hc, rfl⟩ := List.mem_map.mp hx
        exact ((hss s hs).coords c hc).2
      obtain ⟨hband, hpoint⟩ := Access.mem_values haccess
      refine .bind (.mapM fun x hx => hvalues x (hband x hx)) fun _ => .bind (.mapM ?_) fun _ =>
        .pure _
      rintro ⟨x, y⟩ hxy
      obtain ⟨hx, hy⟩ := hpoint x y hxy
      exact .bind (hvalues _ hx) fun _ => .bind (hvalues _ hy) fun _ => .pure _

end Names

section Expressions

variable {P : Span → Prop} {b : Binding}

private theorem argument_marks {e : RasterScript.Expr} (h : Marks P (expr b e))
    (hitems : ∀ items span, e = .list items span → Marks P (exprs b items)) :
    Marks P (argument b e) := by
  rw [argument.eq_def]
  split
  · exact .bind (hitems _ _ rfl) fun _ => .pure _
  · split
    · exact .bind (listSlot_marks _) fun _ => .pure _
    · exact .bind h fun _ => .pure _

mutual

/-- The lowering of an expression reports at places of the expression only. -/
theorem expr_marks : ∀ e : RasterScript.Expr, P e.span → Held P e.parts → Marks P (expr b e)
  | .number _ _, _, _ => by
    rw [expr]
    exact .pure _
  | .name id _, _, h => by
    rw [expr]
    exact name_marks (held_name.mp h).1
  | .call f args _, _, h => by
    obtain ⟨hf, hargs⟩ := held_name.mp h
    rw [expr]
    split
    · exact .bind (.fault hf _) fun _ => .pure _
    · exact .pure _
    · exact .bind (exprs_marks args hargs) fun _ => .pure _
    · exact .bind (arguments_marks args hargs) fun _ => .pure _
  | .image id ss _, _, h => by
    obtain ⟨hid, hss⟩ := held_name.mp h
    rw [expr]
    exact imageRead_marks hid (groups_marks ss hss)
  | .list _ _, hspan, _ => by
    rw [expr]
    exact .bind (.fault hspan _) fun _ => .pure _
  | .unary _ a _, _, h => by
    obtain ⟨ha, hin, -⟩ := held_node.mp h
    rw [expr]
    exact .bind (expr_marks a ha hin) fun _ => .pure _
  | .binary _ x y _, _, h => by
    obtain ⟨hx, hinx, h⟩ := held_node.mp h
    obtain ⟨hy, hiny, -⟩ := held_node.mp h
    rw [expr]
    exact .bind (expr_marks x hx hinx) fun _ => .bind (expr_marks y hy hiny) fun _ => .pure _
  | .cond t x y _, _, h => by
    obtain ⟨ht, hint, h⟩ := held_node.mp h
    obtain ⟨hx, hinx, h⟩ := held_node.mp h
    obtain ⟨hy, hiny, -⟩ := held_node.mp h
    rw [expr]
    exact .bind (expr_marks t ht hint) fun _ => .bind (expr_marks x hx hinx) fun _ =>
      .bind (expr_marks y hy hiny) fun _ => .pure _

private theorem exprs_marks : ∀ es : List RasterScript.Expr, Held P (exprsParts es) →
    Marks P (exprs b es)
  | [], _ => by
    rw [exprs]
    exact .pure _
  | e :: es, h => by
    obtain ⟨he, hin, hes⟩ := held_node.mp h
    rw [exprs]
    exact .bind (expr_marks e he hin) fun _ => .bind (exprs_marks es hes) fun _ => .pure _

private theorem items_marks : ∀ e : RasterScript.Expr, Held P e.parts → ∀ items span,
    e = .list items span → Marks P (exprs b items)
  | .list items _, h, _, _, rfl => exprs_marks items h

private theorem arguments_marks : ∀ es : List RasterScript.Expr, Held P (exprsParts es) →
    Marks P (arguments b es)
  | [], _ => by
    rw [arguments]
    exact .pure _
  | e :: es, h => by
    obtain ⟨he, hin, hes⟩ := held_node.mp h
    rw [arguments]
    exact .bind (argument_marks (expr_marks e he hin) (items_marks e hin)) fun _ =>
      .bind (arguments_marks es hes) fun _ => .pure _

private theorem groups_marks : ∀ ss : List (Selector RasterScript.Expr), Held P (groupsParts ss) →
    ∀ s ∈ groups b ss, MarkedGroup P s
  | [], _ => by
    rw [groups]
    exact List.forall_mem_nil _
  | ⟨cs, _⟩ :: ss, h => by
    obtain ⟨hs, hin, hss⟩ := held_node.mp h
    rw [groups, group]
    exact List.forall_mem_cons.mpr ⟨⟨hs, coords_marks cs hin⟩, groups_marks ss hss⟩

private theorem coords_marks : ∀ cs : List (Coord RasterScript.Expr), Held P (coordsParts cs) →
    ∀ c ∈ coords b cs, P c.span ∧ Marks P c.value
  | [], _ => by
    rw [coords]
    exact List.forall_mem_nil _
  | ⟨_, value, _⟩ :: cs, h => by
    obtain ⟨hc, hin, hcs⟩ := held_node.mp h
    obtain ⟨hvalue, hin, -⟩ := held_node.mp hin
    rw [coords, coord]
    exact List.forall_mem_cons.mpr ⟨⟨hc, expr_marks value hvalue hin⟩, coords_marks cs hcs⟩

end

end Expressions

section Statements

variable {P : Span → Prop} {b : Binding}

private theorem scalar_marks {e : RasterScript.Expr} {ps : List Part} (h : Held P (e.part :: ps)) :
    Marks P (expr b e) := by
  obtain ⟨he, hin, -⟩ := held_node.mp h
  exact expr_marks e he hin

private theorem list_marks {e : RasterScript.Expr} {ps : List Part} (h : Held P (e.part :: ps)) :
    Marks P (list b e) := by
  obtain ⟨he, hin, -⟩ := held_node.mp h
  rw [list.eq_def]
  split
  · exact .bind (items_marks _ hin _ _ rfl) fun _ => .pure _
  · split
    · exact .bind (listSlot_marks _) fun _ => .pure _
    · exact .bind (.fault he _) fun _ => .pure _

private theorem assign_marks {target : Ident} {value : RasterScript.Expr}
    (h : Held P [.name target, value.part]) (op : AssignOp) :
    Marks P (assign b target op value) := by
  obtain ⟨htarget, hvalue⟩ := held_name.mp h
  refine .bind (symbolOf_marks htarget _) fun s => ?_
  split
  · exact .pure _
  · split
    -- Scalars and loop variables share a branch.
    case h_3 | h_4 =>
      refine .bind (scalarSlot_marks htarget _) fun slot => ?_
      split
      · exact .pure _
      · refine .bind (scalar_marks hvalue) fun _ => ?_
        split
        · exact .pure _
        · exact .pure _
    · split
      · exact .pure _
      · exact .bind (scalar_marks hvalue) fun _ => .pure _
    · exact .bind (listSlot_marks _) fun _ => .bind (list_marks hvalue) fun _ => .pure _
    · exact .bind (.fault htarget _) fun _ => .pure _

mutual

/-- The lowering of a statement reports at places of its parts only. -/
theorem stmt_marks : ∀ s : RasterScript.Stmt, Held P s.parts → Marks P (stmt b s)
  | .assign _ op _ _, h => by
    rw [stmt]
    exact assign_marks h op
  | .cond test yes no _, h => by
    obtain ⟨-, -, hrest⟩ := held_node.mp h
    obtain ⟨-, hyes, hno⟩ := held_node.mp hrest
    rw [stmt]
    exact .bind (scalar_marks h) fun _ => .bind (stmt_marks yes hyes) fun _ =>
      .bind (other_marks no hno) fun _ => .pure _
  | .loop _ test body _, h => by
    obtain ⟨-, -, hrest⟩ := held_node.mp h
    obtain ⟨-, hbody, -⟩ := held_node.mp hrest
    rw [stmt]
    exact .bind (scalar_marks h) fun _ => .bind (stmt_marks body hbody) fun _ => .pure _
  | .foreach var source body _, h => by
    obtain ⟨hvar, hrest⟩ := held_name.mp h
    obtain ⟨hsource, hrest⟩ := held_append.mp hrest
    obtain ⟨-, hbody, -⟩ := held_node.mp hrest
    rw [stmt]
    refine .bind (scalarSlot_marks hvar _) fun slot => ?_
    split
    · exact .pure _
    · cases source with
      | list items =>
        exact .bind (list_marks hsource) fun _ => .bind (stmt_marks body hbody) fun _ => .pure _
      | range low high =>
        obtain ⟨-, -, hhigh⟩ := held_node.mp hsource
        exact .bind (scalar_marks hsource) fun _ => .bind (scalar_marks hhigh) fun _ =>
          .bind (stmt_marks body hbody) fun _ => .pure _
  | .block body _, h => by
    rw [stmt]
    exact stmts_marks body h
  | .breakIf test _, h => by
    rw [stmt]
    exact .bind (scalar_marks h) fun _ => .pure _
  | .leave _, _ => by
    rw [stmt]
    exact .pure _

private theorem other_marks :
    ∀ s : Option RasterScript.Stmt, Held P (elseParts s) → Marks P (other b s)
  | none, _ => by
    rw [other]
    exact .pure _
  | some s, h => by
    obtain ⟨-, hin, -⟩ := held_node.mp h
    rw [other]
    exact stmt_marks s hin

private theorem stmts_marks :
    ∀ ss : List RasterScript.Stmt, Held P (stmtsParts ss) → Marks P (stmts b ss)
  | [], _ => by
    rw [stmts]
    exact .pure _
  | s :: ss, h => by
    obtain ⟨-, hin, hss⟩ := held_node.mp h
    rw [stmts]
    exact .bind (stmt_marks s hin) fun _ => .bind (stmts_marks ss hss) fun _ => .pure _

end

/-! ### Scripts -/

private theorem initValues_marks {vs : List NamedValue} (h : Held P (vs.flatMap NamedValue.parts)) :
    Marks P (initValues b vs) := by
  induction vs with
  | nil => exact .pure _
  | cons v vs ih =>
    obtain ⟨hv, hvs⟩ := held_append.mp h
    obtain ⟨hid, hvalue⟩ := held_name.mp hv
    have hfirst : Marks P (initValue b v) := by
      refine .bind (scalar_marks hvalue) fun _ => .bind (scalarSlot_marks hid _) fun slot => ?_
      split
      · exact .pure _
      · exact .pure _
    exact .bind hfirst fun _ => .bind (ih hvs) fun _ => .pure _

theorem init_marks {items : List Item} (h : Held P (items.map Item.part)) :
    Marks P (init b items) := by
  induction items with
  | nil => exact .pure _
  | cons i items ih =>
    cases i with
    | init values span =>
      obtain ⟨-, hvalues, hitems⟩ := held_node.mp h
      exact .bind (initValues_marks hvalues) fun _ => .bind (ih hitems) fun _ => .pure _
    | images _ _ => exact ih (held_node.mp h).2.2
    | options _ _ => exact ih (held_node.mp h).2.2
    | stmt _ => exact ih (held_node.mp h).2.2

theorem body_marks {items : List Item} (h : Held P (items.map Item.part)) :
    Marks P (body b items) := by
  induction items with
  | nil => exact .pure _
  | cons i items ih =>
    cases i with
    | stmt s =>
      obtain ⟨-, hs, hitems⟩ := held_node.mp h
      exact .bind (stmt_marks s hs) fun _ => .bind (ih hitems) fun _ => .pure _
    | images _ _ => exact ih (held_node.mp h).2.2
    | init _ _ => exact ih (held_node.mp h).2.2
    | options _ _ => exact ih (held_node.mp h).2.2

end Statements

end Lower

/-- The faults that prevent the lowering of a script stand at places of its parts. -/
theorem ofScript_faults {P : Span → Prop} {script : Script} (h : Part.Held P script.parts)
    {b : Binding} {faults : List (Located Fault)} (herror : ofScript script b = .error faults) :
    ∀ f ∈ faults, P f.span := by
  rw [ofScript] at herror
  split at herror
  next init body slots hrun =>
  split at herror
  · cases herror
  · cases herror
    have hmarks : Lower.Marks P (do
        let init ← Lower.init b script.items
        let body ← Lower.body b script.items
        return (init, body) : Lower (List Stmt × List Stmt)) :=
      .bind (Lower.init_marks h) fun _ => .bind (Lower.body_marks h) fun _ => .pure _
    have hfaults := hmarks .empty (List.forall_mem_nil _)
    rwa [hrun] at hfaults

end RasterScript.Code
