import RasterScript.Proofs.Binding.Places
import RasterScript.Proofs.Meaning.Direct

/-! What the walk through statements does: it reports an error, or it declares the names that a
direct reading declares and binds all names of the statements for good. -/
namespace RasterScript

open Direct (Declared Role)

namespace SymbolTable

/-! ### Declared names -/

/-- What a symbol outside the loops is in a direct reading. -/
def role (s : Symbol) : Role :=
  match s.kind with
  | .sourceImage => .source
  | .destImage => .destination
  | .list => .list
  | .scalar | .loopVar => if s.scope = imageScope then .kept else .scalar

/-- The names outside the loops. -/
def declared (t : SymbolTable) : Declared :=
  (t.symbols.filter isGlobal).map fun s => (s.name, role s)

section Declared

variable {t : SymbolTable} {name : String} {kind : SymbolKind} {span : Span} {scope : ScopeId}

private theorem lookup_map_name (symbols : List Symbol) (name : String) :
    (symbols.map fun s => (s.name, role s)).lookup name =
      (symbols.find? (·.name = name)).map role := by
  induction symbols with
  | nil => rfl
  | cons s symbols ih =>
    rw [List.map_cons, List.lookup_cons, List.find?_cons, ih]
    by_cases h : s.name = name
    · simp [h]
    · simp [h, beq_false_of_ne (Ne.symm h)]

private theorem find?_global (h : WellFormed t) (name : String) :
    (t.symbols.filter isGlobal).find? (·.name = name) = t.global? name := by
  cases hg : t.global? name with
  | none =>
    refine List.find?_eq_none.mpr fun s hs => ?_
    obtain ⟨hs, hglobal⟩ := List.mem_filter.mp hs
    simpa using h.not_mem_of_global? hg hs hglobal
  | some s =>
    obtain ⟨hs, hglobal, hname⟩ := h.mem_of_global? hg
    cases hf : (t.symbols.filter isGlobal).find? (·.name = name) with
    | none =>
      have := List.find?_eq_none.mp hf s (List.mem_filter.mpr ⟨hs, hglobal⟩)
      exact absurd hname (by simpa using this)
    | some r =>
      obtain ⟨hr, hrglobal⟩ := List.mem_filter.mp (List.mem_of_find?_eq_some hf)
      have hrname : r.name = name := by simpa using List.find?_some hf
      rw [h.apart r hr s hs hrglobal hglobal (hrname.trans hname.symm)]

theorem lookup_declared (h : WellFormed t) (name : String) :
    t.declared.lookup name = (t.global? name).map role := by
  rw [declared, lookup_map_name, find?_global h]

theorem lookup_declared_of_mem (h : WellFormed t) {s : Symbol} (hs : s ∈ t.symbols)
    (hglobal : isGlobal s) : t.declared.lookup s.name = some (role s) := by
  rw [lookup_declared h]
  cases hg : t.global? s.name with
  | none => exact absurd rfl (h.not_mem_of_global? hg hs hglobal)
  | some r =>
    obtain ⟨hr, hrglobal, hname⟩ := h.mem_of_global? hg
    rw [h.apart r hr s hs hrglobal hglobal hname]
    rfl

theorem declared_withSymbol (h : scope < 2) :
    (t.withSymbol scope name kind span).declared =
      t.declared ++ [(name, role ⟨t.symbols.length, name, kind, scope, span⟩)] := by
  simp [declared, withSymbol, List.filter_append, isGlobal, h]

theorem declared_withLoop (h : WellFormed t) (parent : ScopeId) :
    (t.withLoop parent name span).declared = t.declared := by
  have := h.two_le
  simp [declared, withLoop, withSymbol, pushScope, addScope, List.filter_append, isGlobal,
    Nat.not_lt.mpr this]

end Declared

end SymbolTable

namespace Binding

open SymbolTable (Loops isGlobal WellFormed Extends Scoped imageScope pixelScope)

variable {α β : Type}

/-! ### Steps that declare names -/

/-- Tables in which only images that the caller brings have the name of a constant. -/
structure Good (given : List String) (t : SymbolTable) : Prop where
  wf : WellFormed t
  plain : ∀ s ∈ t.symbols, isGlobal s → (constant? s.name).isSome →
    s.kind.isImage ∧ s.name ∈ given

/-- What a stretch of the walk does without an error: it declares names and keeps an invariant of
the table, and a property holds in every later binding. -/
structure Step (I : SymbolTable → Prop) (d : Declared → Declared) (P : Binding → Prop)
    (a c : Analysis) : Prop where
  inv : I c.binding.table
  table : Extends a.binding.table c.binding.table
  declared : c.binding.table.declared = d a.binding.table.declared
  bound : ∀ b, Le c.binding b → P b

/-- A step that declares names, if it reports no error. -/
def Declares (I : SymbolTable → Prop) (x : Walk α) (d : Declared → Declared)
    (P : α → Binding → Prop) : Prop :=
  ∀ a, Clean (x.run a).2 → I a.binding.table → Step I d (P (x.run a).1) a (x.run a).2

theorem run_bind (x : Walk α) (f : α → Walk β) (a : Analysis) :
    (x >>= f).run a = (f (x.run a).1).run (x.run a).2 := rfl

section Rules

variable {I : SymbolTable → Prop} {x : Walk α} {f : α → Walk β} {d e : Declared → Declared}
  {P : α → Binding → Prop} {Q : β → Binding → Prop} {spans : List Span}

theorem Declares.mono {P' : α → Binding → Prop} (hx : Declares I x d P)
    (h : ∀ v b, P v b → P' v b) : Declares I x d P' := by
  intro a hclean hI
  obtain ⟨hinv, htable, hdeclared, hbound⟩ := hx a hclean hI
  exact ⟨hinv, htable, hdeclared, fun b hb => h _ b (hbound b hb)⟩

theorem Declares.bind (hx : Declares I x d P) (hk : ∀ v, Keeping spans (f v))
    (hf : ∀ v, Declares I (f v) e fun w b => P v b → Q w b) :
    Declares I (x >>= f) (fun D => e (d D)) Q := by
  intro a hclean hI
  have hkeeps := hk (x.run a).1 (x.run a).2
  have hstep := hx a (hkeeps.clean hclean) hI
  have hnext := hf (x.run a).1 (x.run a).2 hclean hstep.inv
  refine ⟨hnext.inv, hstep.table.trans hnext.table, ?_, fun b hb => ?_⟩
  · exact hnext.declared.trans (congrArg e hstep.declared)
  · exact hnext.bound b hb (hstep.bound b ((hkeeps.le hnext.table).trans hb))

/-- What holds after the first step does not matter. -/
theorem Declares.after (hx : Declares I x d P) (hk : ∀ v, Keeping spans (f v))
    (hf : ∀ v, Declares I (f v) e Q) : Declares I (x >>= f) (fun D => e (d D)) Q :=
  hx.bind hk fun v => (hf v).mono fun _ _ h _ => h

/-- A step that leaves the table alone declares nothing. -/
theorem Reads.step {a : Analysis} (h : Reads a.binding.table spans x P)
    (hclean : Clean (x.run a).2) (hI : I a.binding.table) :
    Step I (fun D => D) (P (x.run a).1) a (x.run a).2 := by
  obtain ⟨-, htable, hpost⟩ := h a rfl
  exact ⟨htable.symm ▸ hI, htable ▸ .refl _, by rw [htable], hpost hclean⟩

theorem Reads.declares (spans : List Span) (h : ∀ t, I t → Reads t spans x P) :
    Declares I x (fun D => D) P :=
  fun _ hclean hI => (h _ hI).step hclean hI

theorem report_not_clean {span : Span} {fault : Fault} (h : fault.level = .error) (a : Analysis) :
    ¬Clean ((report span fault).run a).2 :=
  fun hclean => (report_reads h a rfl).2.2 hclean _ (.refl _)

end Rules

/-! ### Declarations -/

section Declare

variable {t : SymbolTable} {scope : ScopeId} {name : String} {kind : SymbolKind} {span : Span}

/-- A name that is there keeps its symbol, and a different kind is an error. -/
theorem declare_reads (wf : WellFormed t) {s : Symbol} (h : t.lookup scope name = some s) :
    Reads t [] (declare scope name kind span) fun id _ => id = s.id ∧ s.kind = kind := by
  intro a ha
  have hrun := declare_run scope name kind span a
  rw [ha, wf.declare_old h] at hrun
  refine ⟨declare_keeping _ _ _ _ a, by rw [hrun], fun hclean b _ => ?_⟩
  rw [hrun] at hclean ⊢
  refine ⟨rfl, ?_⟩
  by_contra hkind
  rw [if_neg hkind] at hclean
  exact absurd rfl (hclean _ (List.mem_append_right _ (List.mem_singleton_self _)))

theorem declare_new_run {a : Analysis} (hstep : a.binding.table.InStep)
    (h : a.binding.table.lookup scope name = none) :
    (declare scope name kind span).run a =
      (a.binding.table.symbols.length,
        { a with binding.table := a.binding.table.withSymbol scope name kind span }) := by
  rw [declare_run, hstep.declare_new h]
  simp

/-- A new variable of the pixel. -/
theorem Good.withVariable {given : List String} (h : Good given t) (hnew : t.global? name = none)
    (hplain : constant? name = none) (hkind : SymbolTable.holds pixelScope kind) :
    Good given (t.withSymbol pixelScope name kind span) where
  wf := by
    refine h.wf.withSymbol h.wf.two_le hkind ?_ fun _ s hs => ?_
    · exact (Option.or_eq_none_iff.mp hnew).1
    · exact h.wf.not_mem_of_global? hnew hs
  plain := by
    intro s hs hglobal hconst
    rcases List.mem_append.mp hs with hs | hs
    · exact h.plain s hs hglobal hconst
    · rw [List.mem_singleton.mp hs, hplain] at hconst
      simp at hconst

end Declare

/-! ### Places inside loops -/

/-- Good tables with a scope of the pixel inside the given loops. -/
structure Inside (given : List String) (scope : ScopeId) (loops : Loops) (t : SymbolTable) :
    Prop where
  good : Good given t
  nested : Scoped t scope loops

section Inside

variable {given : List String} {t u : SymbolTable} {scope : ScopeId} {loops : Loops}

theorem Inside.extend (h : Inside given scope loops t) (hext : Extends t u) (hgood : Good given u) :
    Inside given scope loops u := ⟨hgood, h.nested.extend hext⟩

theorem not_loopVar_of_global (h : WellFormed t) {s : Symbol} (hs : s ∈ t.symbols)
    (hglobal : isGlobal s) : s.kind ≠ .loopVar := by
  intro hkind
  have hholds := h.kinds s hs
  rw [hkind] at hholds
  simp only [isGlobal, decide_eq_true_eq] at hglobal
  generalize s.scope = n at hholds hglobal
  obtain _ | _ | n := n
  · cases hholds
  · cases hholds
  · exact absurd hglobal (by simp)

private theorem loop_symbol (h : Scoped t scope loops) {name : String} {id : SymbolId}
    (hid : (name, id) ∈ loops) : ∃ s, t.symbol? id = some s ∧ s.kind = .loopVar := by
  induction h with
  | pixel => cases hid
  | loop _ _ hloop _ ih =>
    rcases List.mem_cons.mp hid with heq | hid
    · cases heq
      obtain ⟨s, hs, -, hkind⟩ := hloop.symbol
      exact ⟨s, hs, hkind⟩
    · exact ih hid

theorem mem_of_lookup_loops {name : String} {id : SymbolId} (h : loops.lookup name = some id) :
    (name, id) ∈ loops := by
  obtain ⟨l, r, rfl, -⟩ := List.lookup_eq_some_iff.mp h
  simp

theorem Inside.sees (h : Inside given scope loops t) : Sees t scope loops where
  loop := by
    intro name id hid
    obtain ⟨s, hs, hkind⟩ := loop_symbol h.nested (mem_of_lookup_loops hid)
    refine ⟨s, ?_, h.good.wf.ids hs, hkind⟩
    rw [SymbolTable.resolve_eq h.good.wf h.nested, hid]
    exact hs
  global := by
    intro name s hnone hs
    rw [SymbolTable.resolve_eq h.good.wf h.nested, hnone] at hs
    obtain ⟨hmem, hglobal, hname⟩ := h.good.wf.mem_of_global? hs
    exact ⟨hmem, hglobal, hname, not_loopVar_of_global h.good.wf hmem hglobal⟩

/-- A name that is found outside the loops. -/
theorem Inside.mem_of_resolve (h : Inside given scope loops t) {name : String} {s : Symbol}
    (hs : t.resolve scope name = some s) (hkind : s.kind ≠ .loopVar) :
    s ∈ t.symbols ∧ s.name = name := by
  cases hl : loops.lookup name with
  | none =>
    obtain ⟨hmem, -, hname, -⟩ := h.sees.global hl hs
    exact ⟨hmem, hname⟩
  | some id =>
    obtain ⟨r, hr, -, hloop⟩ := h.sees.loop hl
    rw [Option.some.inj (hr.symm.trans hs)] at hloop
    exact absurd hloop hkind

/-- A name that is not found has no symbol. -/
theorem Inside.not_found (h : Inside given scope loops t) {name : String}
    (hnone : t.resolve scope name = none) :
    loops.lookup name = none ∧ t.global? name = none := by
  rw [SymbolTable.resolve_eq h.good.wf h.nested] at hnone
  cases hl : loops.lookup name with
  | none => exact ⟨rfl, by rwa [hl] at hnone⟩
  | some id =>
    obtain ⟨s, hs, -⟩ := loop_symbol h.nested (mem_of_lookup_loops hl)
    rw [hl] at hnone
    exact absurd (hs.symm.trans hnone) (by simp)

theorem Global.role {b : Binding} (h : WellFormed b.table) {id : Ident} {s : Symbol}
    (hs : Global b loops id s) :
    b.table.declared.lookup id.name = some (SymbolTable.role s) := by
  rw [← hs.name, SymbolTable.lookup_declared_of_mem h hs.mem hs.global]

private theorem role_eq_list {s : Symbol} : SymbolTable.role s = .list ↔ s.kind = .list := by
  unfold SymbolTable.role
  cases s.kind <;> simp <;> split <;> simp

theorem lookup_eq_none_iff {name : String} : loops.lookup name = none ↔ name ∉ loops.map (·.1) := by
  rw [List.lookup_eq_none_iff]
  simp only [List.mem_map]
  grind

/-- A list has not the name of a constant. -/
theorem Good.not_list (h : Good given t) {name : String} {v : Float} (hv : constant? name = some v) :
    t.declared.lookup name ≠ some .list := by
  intro hlist
  rw [SymbolTable.lookup_declared h.wf, Option.map_eq_some_iff] at hlist
  obtain ⟨s, hs, hrole⟩ := hlist
  obtain ⟨hmem, hglobal, rfl⟩ := h.wf.mem_of_global? hs
  have himage := (h.plain s hmem hglobal (by simp [hv])).1
  rw [role_eq_list.mp hrole] at himage
  cases himage

/-- Whether an expression is a list can be read off the declared names. -/
theorem isList_eq {b : Binding} (h : Good given b.table) {e : Expr} {shape : Shape}
    (he : BoundExpr b loops e shape) :
    b.table.declared.isList (loops.map (·.1)) e = decide (shape = .list) := by
  cases shape with
  | list =>
    cases he with
    | literal => rfl
    | name hname =>
      obtain ⟨-, hs, hkind⟩ := hname
      simp only [Declared.isList, hs.role h.wf, role_eq_list.mpr hkind,
        lookup_eq_none_iff.mp hs.free]
      rfl
  | scalar =>
    cases he with
    | @name id _ hname =>
      have hlist : b.table.declared.lookup id.name ≠ some .list ∨ id.name ∈ loops.map (·.1) := by
        cases hname with
        | constant hv => exact .inl (h.not_list hv)
        | loop _ hid => exact .inr (List.mem_map.mpr ⟨_, mem_of_lookup_loops hid, rfl⟩)
        | scalar _ hs hkind | source _ hs hkind =>
          rw [hs.role h.wf, Ne, Option.some.injEq, role_eq_list, hkind]
          exact .inl (by simp)
      rcases hlist with hlist | hlist <;> simp [Declared.isList, hlist]
    | _ => rfl

end Inside

/-! ### Assignments -/

section Assign

variable {given : List String} {t : SymbolTable} {c : Context} {loops : Loops} {target : Ident}
  {op : AssignOp} {shape : Shape} {span : Span}

/-- The role of a first assignment's target. -/
def Shape.role (shape : Shape) : Role := if shape = .list then .list else .scalar

/-- The target of an assignment to a value of a shape. -/
def Target (b : Binding) (loops : Loops) (target : Ident) (op : AssignOp) (shape : Shape) : Prop :=
  constant? target.name = none ∧ ∃ s, Global b loops target s ∧ Assignable s.kind op shape

theorem assignTo_reads {s : Symbol} (h : Inside given c.scope loops t)
    (hs : t.resolve c.scope target.name = some s) :
    Reads t [] (assignTo c target op shape span s) fun _ _ =>
      s.kind ≠ .loopVar ∧ Assignable s.kind op shape ∧
        (c.inLoop = true → s.kind ≠ .destImage) := by
  rw [assignTo]
  split
  · exact (report_reads rfl).elim
  · exact (report_reads rfl).elim
  · next hkind =>
    rw [hkind]
    refine Reads.after (Reads.mark ?_ ?_) fun _ => ?_
    iterate 2 exact fun _ => rfl
    split
    · exact (report_reads rfl).elim
    · next hloop =>
      split
      · exact (report_reads rfl).elim
      · next hset =>
        split
        · exact (report_reads rfl).elim
        · next hshape =>
          refine Reads.pure fun _ _ => ⟨by simp, ?_, fun hin => absurd hin hloop⟩
          obtain rfl : op = .set := by simpa using hset
          cases shape with
          | scalar => exact .image
          | list => exact absurd rfl hshape
  · next hloop hdest =>
    split
    · exact (report_reads rfl).elim
    · next hop =>
      have hfound : t.lookup s.scope target.name = some s := by
        obtain ⟨hmem, hname⟩ := h.mem_of_resolve hs hloop
        rw [← hname]
        exact h.good.wf.lookup_eq hmem
      refine (declare_reads h.good.wf hfound).last fun _ => Reads.pure fun _ _ hkind =>
        ⟨hloop, ?_, fun _ => hdest⟩
      rw [hkind.2] at hop ⊢
      cases shape with
      | scalar => exact .scalar
      | list =>
        obtain rfl : op = .set := by simpa [Shape.kind] using hop
        exact .list

theorem Step.declared_eq {I : SymbolTable → Prop} {d e : Declared → Declared} {P : Binding → Prop}
    {a c : Analysis} (h : Step I d P a c)
    (he : d a.binding.table.declared = e a.binding.table.declared) : Step I e P a c :=
  ⟨h.inv, h.table, h.declared.trans he, h.bound⟩

theorem symbols_bind_run (f : SymbolTable → Walk α) (a : Analysis) :
    (symbols >>= f).run a = (f a.binding.table).run a := rfl

/-- A first assignment. -/
theorem assign_new {a : Analysis} (h : Inside given c.scope loops a.binding.table)
    (hs : a.binding.table.resolve c.scope target.name = none)
    (hplain : constant? target.name = none) :
    Step (Inside given c.scope loops) (·.declare target.name shape.role)
      (fun b => Target b loops target .set shape) a
      ((do
        let id ← declare pixelScope target.name shape.kind target.span
        bindName target.span (.symbol id) : Walk Unit).run a).2 := by
  obtain ⟨hfree, hnew⟩ := h.not_found hs
  have hlookup := (Option.or_eq_none_iff.mp hnew).1
  rw [run_bind, declare_new_run h.good.wf.toInStep hlookup]
  have hext : Extends a.binding.table
      (a.binding.table.withSymbol pixelScope target.name shape.kind target.span) :=
    SymbolTable.extends_withSymbol (by decide)
  have hkind : SymbolTable.holds pixelScope shape.kind := by cases shape <;> rfl
  refine ⟨h.extend hext (h.good.withVariable hnew hplain hkind), hext, ?_, fun b hb => ⟨hplain, ?_⟩⟩
  · have hnone : a.binding.table.declared.lookup target.name = none := by
      rw [SymbolTable.lookup_declared h.good.wf, hnew]
      rfl
    show (a.binding.table.withSymbol _ _ _ _).declared = _
    rw [SymbolTable.declared_withSymbol (by decide), Declared.declare, hnone]
    cases shape <;> rfl
  · let s : Symbol := ⟨a.binding.table.symbols.length, target.name, shape.kind, pixelScope, target.span⟩
    have hmem : s ∈ b.table.symbols :=
      hb.table.mem (List.mem_append_right _ (List.mem_singleton_self _))
    refine ⟨s, ⟨hfree, hmem, rfl, rfl, hb.names _ List.mem_cons_self⟩, ?_⟩
    · cases shape with
      | scalar => exact .scalar
      | list => exact .list

theorem assignValue_declares :
    Declares (Inside given c.scope loops) (assignValue c target op shape span)
      (·.declare target.name shape.role) fun _ b => Target b loops target op shape := by
  intro a hclean h
  by_cases hconst : (constant? target.name).isSome
  · rw [assignValue, if_pos hconst] at hclean
    exact absurd hclean (report_not_clean rfl a)
  · have hplain : constant? target.name = none := by simpa using hconst
    rw [assignValue, if_neg hconst, symbols_bind_run] at hclean ⊢
    cases hs : a.binding.table.resolve c.scope target.name with
    | none =>
      rw [hs] at hclean
      by_cases hop : op = .set
      · subst hop
        exact assign_new h hs hplain
      · simp only [hop, ne_eq, not_false_eq_true, if_true] at hclean
        exact absurd hclean (report_not_clean rfl a)
    | some s =>
      rw [hs] at hclean
      have hreads : Reads a.binding.table [target.span]
          (do bindName target.span (.symbol s.id); assignTo c target op shape span s)
          fun _ b => Target b loops target op shape :=
        (bindName_reads _ _).last fun _ => (assignTo_reads h hs).mono
          fun _ b hb hto hnoted => ⟨hplain, s, h.sees.global_of_kind hb hs hnoted hto.1, hto.2.1⟩
      have hstep := hreads.step hclean h
      obtain ⟨-, r, hr, -⟩ := hstep.bound _ (.refl _)
      have hrole := hr.role hstep.inv.good.wf
      rw [hstep.declared] at hrole
      exact hstep.declared_eq (by simp [Declared.declare, hrole])

private theorem assign_declares (target : Ident) (op : AssignOp) (value : Expr) (span : Span) :
    Declares (Inside given c.scope loops) (assign c target op value)
      (fun D => D.stmt (loops.map (·.1)) (.assign target op value span))
      fun _ b => BoundStmt b loops (.assign target op value span) := by
  intro a hclean h
  rw [assign_eq] at hclean ⊢
  obtain ⟨-, htable, hvalue⟩ := @expr_reads _ loops c value a rfl
  have hkeeps := @assignValue_keeping c target op ((expr c value).run a).1 value.span
    ((expr c value).run a).2
  have hmid := hvalue (hkeeps.clean hclean)
  have hstep := @assignValue_declares given c loops target op ((expr c value).run a).1 value.span
    ((expr c value).run a).2 hclean (htable.symm ▸ h)
  refine ⟨hstep.inv, htable ▸ hstep.table, ?_, fun b hb => ?_⟩
  · have hlist := isList_eq (htable.symm ▸ h.good) (hmid _ (.refl _) h.sees)
    rw [htable] at hlist
    refine hstep.declared.trans ?_
    rw [htable, Declared.stmt, hlist]
    simp [Shape.role]
  · obtain ⟨hplain, s, hs, hassign⟩ := hstep.bound b hb
    exact .assign (hmid b ((hkeeps.le hstep.table).trans hb) h.sees) hplain hs hassign

end Assign

/-! ### Statements -/

section Statements

variable {given : List String} {c : Context} {loops : Loops}

theorem scalar_declares (e : Expr) :
    Declares (Inside given c.scope loops) (scalar c e) (fun D => D)
      fun _ b => BoundScalar b loops e :=
  Reads.declares _ fun _ h => (expr_reads e).scalar.mono fun _ _ _ he => he h.sees

theorem source_declares : ∀ s : Source,
    Declares (Inside given c.scope loops) (source c s) (fun D => D) fun _ b => BoundSource b loops s
  | .list items => Reads.declares _ fun t h => by
    refine (@expr_reads t loops c items).last fun shape => ?_
    cases shape with
    | scalar => exact (report_reads rfl).elim
    | list => exact Reads.pure fun _ _ he => .list (he h.sees)
  | .range low high => (scalar_declares low).bind (fun _ => scalar_keeping high) fun _ =>
      (scalar_declares high).mono fun _ _ hhigh hlow => .range hlow hhigh

theorem openLoop_run {a : Analysis} (h : WellFormed a.binding.table) (parent : ScopeId)
    (var : Ident) :
    (openLoop parent var).run a =
      (a.binding.table.scopes.length,
        { a with
          binding.table := a.binding.table.withLoop parent var.name var.span
          binding.names := (var.span, .symbol a.binding.table.symbols.length) :: a.binding.names }) := by
  let pushed : Analysis :=
    { a with binding.table := (a.binding.table.pushScope parent .loop).1 }
  have hdeclare := @declare_new_run _ var.name .loopVar var.span pushed
    (h.toInStep.pushScope parent .loop) (h.lookup_new parent var.name)
  show (do
    let id ← declare a.binding.table.ids.nextScope var.name .loopVar var.span
    bindName var.span (.symbol id)
    return a.binding.table.ids.nextScope : Walk ScopeId).run pushed = _
  rw [h.nextScope, run_bind, hdeclare]
  rfl

theorem Inside.withLoop {t : SymbolTable} (h : Inside given c.scope loops t) (var : Ident) :
    Inside given t.scopes.length ((var.name, t.symbols.length) :: loops)
      (t.withLoop c.scope var.name var.span) where
  good := by
    refine ⟨h.good.wf.withLoop c.scope, fun s hs hglobal hconst => ?_⟩
    rcases List.mem_append.mp hs with hs | hs
    · exact h.good.plain s hs hglobal hconst
    · rw [List.mem_singleton.mp hs] at hglobal
      exact absurd (by simpa [isGlobal] using hglobal) (Nat.not_lt.mpr h.good.wf.two_le)
  nested := h.nested.withLoop h.good.wf

/-- A loop variable is none of those around it. -/
theorem loop_fresh {t : SymbolTable} {scope : ScopeId} (h : Scoped t scope loops) :
    ∀ p ∈ loops, p.2 ≠ t.symbols.length := by
  rintro ⟨name, id⟩ hp rfl
  obtain ⟨s, hs, -⟩ := loop_symbol h hp
  exact absurd (List.getElem?_eq_some_iff.mp hs).1 (Nat.lt_irrefl _)

private theorem loop_declares (var : Ident) (body : Stmt)
    (hbody : ∀ scope id, Declares (Inside given scope ((var.name, id) :: loops))
      (stmt { c with scope := scope, inLoop := true } body)
      (fun D => D.stmt (var.name :: loops.map (·.1)) body)
      fun _ b => BoundStmt b ((var.name, id) :: loops) body) :
    Declares (Inside given c.scope loops)
      (do
        let scope ← openLoop c.scope var
        stmt { c with scope := scope, inLoop := true } body)
      (fun D => D.stmt (var.name :: loops.map (·.1)) body)
      fun _ b => ∀ source span, BoundSource b loops source →
        BoundStmt b loops (.foreach var source body span) := by
  intro a hclean h
  rw [run_bind, openLoop_run h.good.wf] at hclean ⊢
  have hstep := hbody _ _ _ hclean (h.withLoop var)
  have hkeeps := stmt_keeping body { c with scope := a.binding.table.scopes.length, inLoop := true }
    { a with
      binding.table := a.binding.table.withLoop c.scope var.name var.span
      binding.names := (var.span, .symbol a.binding.table.symbols.length) :: a.binding.names }
  have hext : Extends a.binding.table (a.binding.table.withLoop c.scope var.name var.span) :=
    SymbolTable.extends_withLoop c.scope
  refine ⟨h.extend (hext.trans hstep.table) hstep.inv.good, hext.trans hstep.table, ?_, ?_⟩
  · exact hstep.declared.trans
      (congrArg (Declared.stmt · _ _) (SymbolTable.declared_withLoop h.good.wf c.scope))
  · intro b hb source span hsource
    have hnoted := hb.names _ (hkeeps.names _ List.mem_cons_self)
    have hsymbol := (hstep.table.trans hb.table).symbol? SymbolTable.symbol?_withSymbol
    exact .foreach hsource hnoted hsymbol rfl (loop_fresh h.nested) (hstep.bound b hb)

mutual

/-- The walk through a statement declares its names and binds them. -/
theorem stmt_declares : ∀ (s : Stmt) (c : Context) (loops : Loops),
    Declares (Inside given c.scope loops) (stmt c s) (fun D => D.stmt (loops.map (·.1)) s)
      fun _ b => BoundStmt b loops s
  | .assign target op value span, c, loops => assign_declares target op value span
  | .cond test yes no span, c, loops => by
    have hno : Declares (Inside given c.scope loops) (other c no)
        (fun D => D.other (loops.map (·.1)) no) fun _ b => BoundStmt b loops yes →
          BoundScalar b loops test → BoundStmt b loops (.cond test yes no span) :=
      (other_declares no c loops).mono fun _ _ hno hyes htest => .cond htest hyes hno
    have hyes := (stmt_declares yes c loops).bind (fun _ => other_keeping no c) fun _ => hno
    exact (scalar_declares test).bind
      (fun _ => (stmt_keeping yes c).bind fun _ => other_keeping no c) fun _ => hyes
  | .loop kind test body span, c, loops => by
    refine (scalar_declares test).bind (fun _ => stmt_keeping body _) fun _ => ?_
    exact (stmt_declares body { c with inLoop := true } loops).mono fun _ _ hbody htest =>
      .loop htest hbody
  | .foreach var source body span, c, loops => by
    rw [stmt_foreach]
    refine (source_declares source).bind
      (fun _ => (openLoop_keeping _ _).bind fun _ => stmt_keeping body _) fun _ => ?_
    refine (loop_declares var body fun scope id => stmt_declares body _ _).mono ?_
    exact fun _ _ h hsource => h source span hsource
  | .block body span, c, loops => (stmts_declares body c loops).mono fun _ _ h => .block h
  | .breakIf test span, c, loops => by
    simp only [stmt, Declared.stmt]
    refine Reads.declares test.names fun t h => Reads.unless rfl fun _ => ?_
    exact (expr_reads test).scalar.mono fun _ _ _ htest _ => .breakIf (htest h.sees)
  | .leave span, c, loops => by
    simp only [stmt, Declared.stmt]
    refine Reads.declares [] fun _ _ => ?_
    split
    · exact Reads.pure fun _ _ => .leave
    · exact (report_reads rfl).elim

private theorem other_declares : ∀ (s : Option Stmt) (c : Context) (loops : Loops),
    Declares (Inside given c.scope loops) (other c s) (fun D => D.other (loops.map (·.1)) s)
      fun _ b => BoundElse b loops s
  | none, _, _ => Reads.declares _ fun _ _ => Reads.pure fun _ _ => .none
  | some s, c, loops => (stmt_declares s c loops).mono fun _ _ h => .some h

private theorem stmts_declares : ∀ (ss : List Stmt) (c : Context) (loops : Loops),
    Declares (Inside given c.scope loops) (stmts c ss) (fun D => D.stmts (loops.map (·.1)) ss)
      fun _ b => BoundStmts b loops ss
  | [], _, _ => Reads.declares _ fun _ _ => Reads.pure fun _ _ => .nil
  | s :: ss, c, loops => (stmt_declares s c loops).bind (fun _ => stmts_keeping ss c) fun _ =>
      (stmts_declares ss c loops).mono fun _ _ hss hs => .cons hs hss

end

end Statements

end Binding

end RasterScript
