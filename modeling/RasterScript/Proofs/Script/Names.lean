import RasterScript.Proofs.Script.Acceptance
import RasterScript.Proofs.Token.Places

/-! The names of a script by their places in the text. No two names of a script that was read have
the same place. -/
namespace RasterScript

/-! ### Places of names -/

mutual

/-- The places of the names of an expression, in the order of the text. -/
def Expr.names : Expr → List Span
  | .number _ _ => []
  | .name id _ => [id.span]
  | .call f args _ => f.span :: exprsNames args
  | .image id selectors _ => id.span :: groupsNames selectors
  | .list items _ => exprsNames items
  | .unary _ a _ => a.names
  | .binary _ a b _ => a.names ++ b.names
  | .cond t a b _ => t.names ++ (a.names ++ b.names)

def exprsNames : List Expr → List Span
  | [] => []
  | e :: es => e.names ++ exprsNames es

def groupsNames : List (Selector Expr) → List Span
  | [] => []
  | s :: ss => groupNames s ++ groupsNames ss

def groupNames : Selector Expr → List Span
  | ⟨cs, _⟩ => coordsNames cs

def coordsNames : List (Coord Expr) → List Span
  | [] => []
  | c :: cs => coordNames c ++ coordsNames cs

def coordNames : Coord Expr → List Span
  | ⟨_, value, _⟩ => value.names

end

def Source.names : Source → List Span
  | .list items => items.names
  | .range low high => low.names ++ high.names

mutual

/-- The places of the names of a statement, in the order of the text. -/
def Stmt.names : Stmt → List Span
  | .assign target _ value _ => target.span :: value.names
  | .cond test yes no _ => test.names ++ (yes.names ++ elseNames no)
  | .loop _ test body _ => test.names ++ body.names
  | .foreach var source body _ => var.span :: (source.names ++ body.names)
  | .block body _ => stmtsNames body
  | .breakIf test _ => test.names
  | .leave _ => []

def elseNames : Option Stmt → List Span
  | none => []
  | some s => s.names

def stmtsNames : List Stmt → List Span
  | [] => []
  | s :: ss => s.names ++ stmtsNames ss

end

def NamedValue.names (v : NamedValue) : List Span := v.ident.span :: v.value.names

/-- The places of the names of an item, in the order of the text. -/
def Item.names : Item → List Span
  | .images decls _ => decls.map (·.ident.span)
  | .init values _ | .options values _ => values.flatMap NamedValue.names
  | .stmt s => s.names

def Script.names (script : Script) : List Span := script.items.flatMap Item.names

theorem Expr.names_withSpan (e : Expr) (s : Span) : (e.withSpan s).names = e.names := by
  cases e <;> rfl

namespace Script.Derivation

variable {A : Groups} {ts xs : List Token} {t : Token}

/-! ### Names of derived trees -/

/-- The places of the name tokens. -/
def identSpans (ts : List Token) : List Span := (ts.filter (·.kind = .ident)).map Token.span

theorem identSpans_append (ts xs : List Token) :
    identSpans (ts ++ xs) = identSpans ts ++ identSpans xs := by
  simp [identSpans]

private theorem identSpans_ident (h : t.kind = .ident) (ts : List Token) :
    identSpans (t :: ts) = t.span :: identSpans ts := by
  simp [identSpans, h]

/-- The spans stand, in this order, among the places of the name tokens. -/
def Among (spans : List Span) (ts : List Token) : Prop := spans.Sublist (identSpans ts)

theorem Among.nil (ts : List Token) : Among [] ts := List.nil_sublist _

theorem Among.append {a b : List Span} (ha : Among a ts) (hb : Among b xs) :
    Among (a ++ b) (ts ++ xs) := by
  rw [Among, identSpans_append]
  exact List.Sublist.append ha hb

theorem Among.skip {a : List Span} (ha : Among a ts) (t : Token) : Among a (t :: ts) :=
  ha.trans (((List.sublist_cons_self t ts).filter _).map _)

theorem Among.ident {a : List Span} (h : t.kind = .ident) (ha : Among a ts) :
    Among (t.span :: a) (t :: ts) := by
  rw [Among, identSpans_ident h]
  exact ha.cons_cons _

theorem Among.before {a : List Span} (ha : Among a ts) (xs : List Token) : Among a (ts ++ xs) := by
  have h := ha.append (Among.nil xs)
  rwa [List.append_nil] at h

mutual

theorem Expression.names : ∀ {ts e}, Expression A ts e → Among e.names ts
  | _, _, .operators h => h.names
  | _, _, .choice h _ hyes _ hno => h.names.append ((hyes.names.append (hno.names.skip _)).skip _)

theorem Operators.names : ∀ {n ts e}, Operators A n ts e → Among e.names ts
  | _, _, _, .operand h => h.names
  | _, _, _, .tighter _ _ h => h.names
  | _, _, _, .operator _ _ hleft _ hright => hleft.names.append (hright.names.skip _)

theorem Operand.names : ∀ {ts e}, Operand A ts e → Among e.names ts
  | _, _, .signed _ h => h.names.skip _
  | _, _, .power hbase _ h => hbase.names.append (h.names.skip _)
  | _, _, .primary h => h.names

theorem Primary.names : ∀ {ts e}, Primary A ts e → Among e.names ts
  | _, _, .number _ => .nil _
  | _, _, .name h => .ident h (.nil _)
  | _, _, .call h _ hargs _ => .ident h ((hargs.names.before _).skip _)
  | _, _, .image h hg _ => by
    rw [Expr.names, groupsNames, groupsNames, List.append_nil]
    exact .ident h hg.names
  | _, _, .imageTwice h hg hk _ => by
    rw [Expr.names, groupsNames, groupsNames, groupsNames, List.append_nil]
    exact .ident h (hg.names.append hk.names)
  | _, _, .list _ hitems _ => (hitems.names.before _).skip _
  | _, _, .paren _ he _ => by
    rw [Expr.names_withSpan]
    exact (he.names.before _).skip _

theorem Arguments.names : ∀ {ts es}, Arguments A ts es → Among (exprsNames es) ts
  | _, _, .none => .nil _
  | _, _, .some he hes => he.names.append hes.names

theorem MoreArguments.names : ∀ {ts es}, MoreArguments A ts es → Among (exprsNames es) ts
  | _, _, .done => .nil _
  | _, _, .more _ he hes => (he.names.append hes.names).skip _

theorem Group.names : ∀ {ts g}, Group A ts g → Among (groupNames g) ts
  | _, _, .mk _ hx hmore _ => (hx.names.append (hmore.names.before _)).skip _

theorem Coordinate.names : ∀ {ts x}, Coordinate A ts x → Among (coordNames x) ts
  | _, _, .absolute he => he.names
  | _, _, .relative _ he => he.names.skip _

theorem MoreCoordinates.names : ∀ {ts more}, MoreCoordinates A ts more →
    Among (coordsNames more) ts
  | _, _, .done => .nil _
  | _, _, .more _ hx hmore => (hx.names.append hmore.names).skip _

end

theorem Condition.names {e : Expr} (h : Condition A ts e) : Among e.names ts := by
  cases h with
  | mk _ he _ => exact (he.names.before _).skip _

theorem Iterated.names {source : Source} (h : Iterated A ts source) : Among source.names ts := by
  cases h with
  | list he => exact he.names
  | range hlow _ hhigh => exact hlow.names.append (hhigh.names.skip _)

theorem Among.after {a : List Span} (ha : Among a xs) (ts : List Token) : Among a (ts ++ xs) :=
  (Among.nil ts).append ha

mutual

theorem Statement.names : ∀ {ts s}, Statement A ts s → Among s.names ts
  | _, _, .assign hi _ he _ => .ident hi ((he.names.before _).skip _)
  | _, _, .cond _ htest hyes => by
    rw [Stmt.names, elseNames, List.append_nil]
    exact (htest.names.append hyes.names).skip _
  | _, _, .condElse _ htest hyes _ _ _ hno =>
    (htest.names.append (hyes.names.append ((hno.names.skip _).after _))).skip _
  | _, _, .loop _ htest hbody => (htest.names.append hbody.names).skip _
  | _, _, .foreach _ _ hi _ hsource _ hbody =>
    (((Among.ident hi ((hsource.names.append (hbody.names.skip _)).skip _)).skip _).skip _)
  | _, _, .breakIf _ htest _ => (htest.names.before _).skip _
  | _, _, .leave _ _ => .nil _
  | _, _, .block _ hbody _ => (hbody.names.before _).skip _

theorem Body.names : ∀ {ts body}, Body A ts body → Among (stmtsNames body) ts
  | _, _, .done => .nil _
  | _, _, .terminator _ h => h.names.skip _
  | _, _, .statement hs h => hs.names.append h.names

end

theorem Entries.names {α : Type} {E : List Token → α → Prop} {f : α → List Span} {as : List α}
    (h : Entries E ts as) (hE : ∀ {ts a}, E ts a → Among (f a) ts) : Among (as.flatMap f) ts := by
  induction h with
  | done => exact .nil _
  | terminator _ _ ih => exact ih.skip _
  | entry ha _ ih => exact (hE ha).append ih

theorem ImageEntry.names {d : ImageDecl} (h : ImageEntry ts d) : Among [d.ident.span] ts := by
  cases h with
  | mk hi _ _ _ => exact .ident hi (.nil _)

theorem ValueEntry.names {v : NamedValue} (h : ValueEntry A ts v) : Among v.names ts := by
  cases h with
  | mk hi _ he _ => exact .ident hi ((he.names.before _).skip _)

theorem TopStatement.names {i : Item} (h : TopStatement A ts i) : Among i.names ts := by
  cases h with
  | images _ _ hdecls _ =>
    rw [Item.names, List.map_eq_flatMap]
    exact (((hdecls.names ImageEntry.names).before _).skip _).skip _
  | init _ _ hvalues _ => exact (((hvalues.names ValueEntry.names).before _).skip _).skip _
  | options _ _ hvalues _ => exact (((hvalues.names ValueEntry.names).before _).skip _).skip _
  | statement hs => exact hs.names

theorem InDialect.names {dialect : Dialect} {items : List Item}
    (h : InDialect A dialect ts items) : Among (items.flatMap Item.names) ts := by
  rcases h with h | ⟨-, h⟩
  · exact Entries.names h TopStatement.names
  · have hnames := Entries.names h TopStatement.names
    rwa [Among, identSpans_append, show identSpans [endLine ts] = [] from rfl,
      List.append_nil] at hnames

end Script.Derivation

open Script.Derivation in
/-- The names of a script that was read without a fault have different places. -/
theorem Script.parse_names_nodup {text : String} {dialect : Dialect}
    (h : ∀ d ∈ (parse text dialect).diagnostics, d.code ≠ some "E0002") :
    (parse text dialect).script.names.Nodup := by
  rw [syntaxError_iff, faultless_iff] at h
  obtain ⟨items, h⟩ := h
  have hspans := Token.scan_spans_nodup text
  rw [Script.names, parse_items h]
  exact (hspans.sublist ((List.filter_sublist.trans List.filter_sublist).map _)).sublist h.names

end RasterScript
