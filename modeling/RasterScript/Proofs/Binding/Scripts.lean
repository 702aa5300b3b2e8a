import RasterScript.Proofs.Binding.Statements

/-! What the walk through a whole script does. If it reports no error, then its result binds every
name of the script, and the names outside the loops are those of a direct reading. -/
namespace RasterScript.Binding

open Direct (Declared Role)
open SymbolTable (Loops isGlobal WellFormed Extends Scoped imageScope pixelScope)

/-- Tables before the first statement: all symbols are in the image scope. -/
structure Early (given : List String) (t : SymbolTable) : Prop where
  good : Good given t
  early : ∀ s ∈ t.symbols, s.scope = imageScope

/-- The role of a symbol in the image scope. -/
def imageRole : SymbolKind → Role
  | .sourceImage => .source
  | .destImage => .destination
  | .list => .list
  | .scalar | .loopVar => .kept

/-- A symbol of the image scope. -/
structure ImageSymbol (b : Binding) (name : String) (kind : SymbolKind) (s : Symbol) : Prop where
  mem : s ∈ b.table.symbols
  name : s.name = name
  kind : s.kind = kind
  scope : s.scope = imageScope

section Early

variable {given : List String} {t : SymbolTable} {name : String} {kind : SymbolKind} {span : Span}

theorem Early.lookup_eq (h : Early given t) (name : String) :
    t.global? name = t.lookup imageScope name := by
  have hnone : t.lookup pixelScope name = none := by
    refine Option.eq_none_iff_forall_ne_some.mpr fun s hs => ?_
    obtain ⟨hmem, hscope, -⟩ := h.good.wf.mem_of_lookup hs
    rw [h.early s hmem] at hscope
    cases hscope
  rw [SymbolTable.global?, hnone]
  rfl

theorem Early.sees (h : Early given t) : Sees t imageScope [] where
  loop h := nomatch h
  global := by
    intro name s _ hs
    rw [SymbolTable.resolve_image h.good.wf] at hs
    obtain ⟨hmem, hscope, hname⟩ := h.good.wf.mem_of_lookup hs
    have hglobal : isGlobal s := by simp [isGlobal, hscope, imageScope]
    exact ⟨hmem, hglobal, hname, not_loopVar_of_global h.good.wf hmem hglobal⟩

theorem Early.withSymbol (h : Early given t) (hnew : t.lookup imageScope name = none)
    (hkind : SymbolTable.holds imageScope kind)
    (hplain : (constant? name).isSome → kind.isImage ∧ name ∈ given) :
    Early given (t.withSymbol imageScope name kind span) where
  good := by
    refine ⟨h.good.wf.withSymbol (Nat.lt_of_lt_of_le (by decide) h.good.wf.two_le) hkind hnew ?_, ?_⟩
    · intro _ s hs hglobal
      exact h.good.wf.not_mem_of_global? ((h.lookup_eq name).trans hnew) hs hglobal
    · intro s hs hglobal hconst
      rcases List.mem_append.mp hs with hs | hs
      · exact h.good.plain s hs hglobal hconst
      · rw [List.mem_singleton.mp hs] at hconst ⊢
        exact hplain hconst
  early := by
    intro s hs
    rcases List.mem_append.mp hs with hs | hs
    · exact h.early s hs
    · rw [List.mem_singleton.mp hs]

/-- A declaration in the image scope. -/
theorem declare_declares (hkind : SymbolTable.holds imageScope kind)
    (hplain : (constant? name).isSome → kind.isImage ∧ name ∈ given) :
    Declares (Early given) (declare imageScope name kind span) (·.declare name (imageRole kind))
      fun id b => ∃ s, ImageSymbol b name kind s ∧ s.id = id := by
  intro a hclean h
  have hlookup : a.binding.table.declared.lookup name =
      (a.binding.table.lookup imageScope name).map SymbolTable.role := by
    rw [SymbolTable.lookup_declared h.good.wf, h.lookup_eq]
  cases hs : a.binding.table.lookup imageScope name with
  | none =>
    rw [hs] at hlookup
    rw [declare_new_run h.good.wf.toInStep hs]
    have hext := @SymbolTable.extends_withSymbol a.binding.table imageScope name kind span (by decide)
    refine ⟨h.withSymbol hs hkind hplain, hext, ?_, fun b hb => ?_⟩
    · show (a.binding.table.withSymbol _ _ _ _).declared = _
      rw [SymbolTable.declared_withSymbol (by decide), Declared.declare, hlookup]
      cases kind <;> rfl
    · refine ⟨⟨_, name, kind, imageScope, span⟩, ⟨hb.table.mem ?_, rfl, rfl, rfl⟩, rfl⟩
      exact List.mem_append_right _ (List.mem_singleton_self _)
  | some s =>
    rw [hs] at hlookup
    have hstep := (declare_reads h.good.wf hs).step hclean h
    obtain ⟨hmem, hscope, hname⟩ := h.good.wf.mem_of_lookup hs
    refine ⟨hstep.inv, hstep.table, ?_, fun b hb => ?_⟩
    · rw [hstep.declared, Declared.declare, hlookup]
      rfl
    · obtain ⟨hid, hkind⟩ := hstep.bound b hb
      exact ⟨s, ⟨(hstep.table.trans hb.table).mem hmem, hname, hkind, hscope⟩, hid.symm⟩

theorem ImageSymbol.global {b : Binding} {id : Ident} {s : Symbol}
    (h : ImageSymbol b id.name kind s) (hnoted : (id.span, .symbol s.id) ∈ b.names) :
    Global b [] id s :=
  ⟨rfl, h.mem, by simp [isGlobal, h.scope, imageScope], h.name, hnoted⟩

/-! ### Images and options -/

theorem declare_image (name : String) (role : ImageRole) (span : Span)
    (hplain : (constant? name).isSome → name ∈ given) :
    Declares (Early given) (declare imageScope name (imageKind role) span) (·.image (name, role))
      fun _ _ => True := by
  have hrole : imageRole (imageKind role) = Declared.roleOf role := by cases role <;> rfl
  simp only [Declared.image, ← hrole]
  refine (declare_declares ?_ fun h => ⟨?_, hplain h⟩).mono fun _ _ _ => trivial
  · cases role <;> rfl
  · cases role <;> rfl

theorem callerImage_declares (i : String × ImageRole) (hgiven : i.1 ∈ given) :
    Declares (Early given) (callerImage i) (·.image i) fun _ _ => True :=
  (declare_image i.1 i.2 (.point 0) fun _ => hgiven).bind (fun _ => .pure ()) fun _ =>
    Reads.declares [] fun _ _ => Reads.pure fun _ _ _ => trivial

theorem imageDecl_keeping (d : ImageDecl) : Keeping [d.ident.span] (imageDecl d) := by
  rw [imageDecl]
  split
  · exact .nil (Reads.keeping fun _ => report_reads rfl)
  · exact (declare_keeping _ _ _ _).bind fun _ => Reads.keeping fun _ => bindName_reads _ _

theorem imageDecl_declares (d : ImageDecl) :
    Declares (Early given) (imageDecl d) (·.image (d.ident.name, d.role)) fun _ _ => True := by
  rw [imageDecl]
  split
  · intro a hclean
    exact absurd hclean (report_not_clean rfl a)
  · next hconst =>
    exact (declare_image d.ident.name d.role d.ident.span fun h => absurd h hconst).bind
      (fun _ => Reads.keeping fun _ => bindName_reads _ _) fun _ =>
        Reads.declares _ fun _ _ => (bindName_reads _ _).mono fun _ _ _ _ _ => trivial

theorem option_reads (v : NamedValue) :
    Reads t [] (option v) fun _ b => b.outside.isSome := by
  rw [option]
  split
  · exact (report_reads rfl).elim
  · split
    · refine Reads.ofModify fun a ha =>
        ⟨⟨List.prefix_refl _, fun _ h => h, fun _ h => h, ?_, fun _ => rfl⟩, ha, ?_⟩
      · exact fun _ => Nat.le_add_left _ _
      · exact fun _ _ hb => hb.outside rfl
    · exact (report_reads rfl).elim

/-! ### Variables of `init` blocks -/

/-- Declare the variable of an `init` block, once its value is bound. -/
def initTarget (id : Ident) : Walk Unit := do
  if (constant? id.name).isSome then report id.span (.assignConstant id.name)
  else
    let s ← declare SymbolTable.imageScope id.name .scalar id.span
    bindName id.span (.symbol s)

theorem initValue_eq (v : NamedValue) :
    initValue v = (do scalar .init v.value; initTarget v.ident) := rfl

theorem initTarget_keeping (id : Ident) : Keeping [id.span] (initTarget id) := by
  rw [initTarget]
  split
  · exact .nil (Reads.keeping fun _ => report_reads rfl)
  · exact (declare_keeping _ _ _ _).bind fun _ => Reads.keeping fun _ => bindName_reads _ _

theorem initValue_keeping (v : NamedValue) : Keeping v.names (initValue v) := by
  suffices Keeping (v.value.names ++ [v.ident.span]) (initValue v) from
    this.weaken (List.perm_append_singleton _ _).subperm
  exact (scalar_keeping v.value).bind fun _ => initTarget_keeping v.ident

theorem initTarget_declares (id : Ident) :
    Declares (Early given) (initTarget id) (·.declare id.name .kept) fun _ b =>
      constant? id.name = none ∧
        ∃ s, Global b [] id s ∧ s.kind = .scalar ∧ s.scope = imageScope := by
  rw [initTarget]
  split
  · intro a hclean
    exact absurd hclean (report_not_clean rfl a)
  · next hconst =>
    refine (declare_declares rfl fun h => absurd h hconst).bind
      (fun _ => Reads.keeping fun _ => bindName_reads _ _) fun i =>
        Reads.declares _ fun _ _ => (bindName_reads _ _).mono fun _ b _ hnoted hs => ?_
    obtain ⟨s, hs, rfl⟩ := hs
    exact ⟨by simpa using hconst, s, hs.global hnoted, hs.kind, hs.scope⟩

theorem initValue_declares (v : NamedValue) :
    Declares (Early given) (initValue v) (·.declare v.ident.name .kept) fun _ b => BoundInit b v := by
  have hvalue : Declares (Early given) (scalar .init v.value) (fun D => D)
      fun _ b => BoundScalar b [] v.value :=
    Reads.declares _ fun _ h => (expr_reads v.value).scalar.mono fun _ _ _ he => he h.sees
  exact hvalue.bind (fun _ => initTarget_keeping v.ident) fun _ =>
    (initTarget_declares v.ident).mono fun _ _ htarget hvalue => ⟨hvalue, htarget.1, htarget.2⟩

end Early

/-! ### Lists of steps -/

section ForM

variable {α : Type} {I : SymbolTable → Prop} {f : α → Walk Unit} {d : Declared → α → Declared}
  {P : α → Binding → Prop} {spans : α → List Span}

theorem forM_keeping (hk : ∀ x, Keeping (spans x) (f x)) :
    ∀ xs : List α, Keeping (xs.flatMap spans) (xs.forM f)
  | [] => .pure ()
  | x :: xs => by
    rw [List.flatMap_cons]
    exact (hk x).bind fun _ => forM_keeping hk xs

theorem forM_declares (hk : ∀ x, Keeping (spans x) (f x)) :
    ∀ xs : List α, (∀ x ∈ xs, Declares I (f x) (d · x) fun _ => P x) →
      Declares I (xs.forM f) (xs.foldl d) fun _ b => ∀ x ∈ xs, P x b
  | [], _ => Reads.declares [] fun _ _ => Reads.pure fun _ _ _ h => nomatch h
  | x :: xs, hf => by
    have hxs : Declares I (xs.forM f) (xs.foldl d) fun _ b => P x b → ∀ y ∈ x :: xs, P y b :=
      (forM_declares hk xs fun y hy => hf y (List.mem_cons_of_mem x hy)).mono
        fun _ b hxs hx => List.forall_mem_cons.mpr ⟨hx, hxs⟩
    exact (hf x List.mem_cons_self).bind (fun _ => forM_keeping hk xs) fun _ => hxs

end ForM

/-! ### Items -/

/-- The places that each of the three passes over the items notes. -/
def declaredPlaces : Item → List Span
  | .images decls _ => decls.flatMap fun d => [d.ident.span]
  | _ => []

def initPlaces : Item → List Span
  | .init values _ => values.flatMap NamedValue.names
  | _ => []

def stmtPlaces : Item → List Span
  | .stmt s => s.names
  | _ => []

section Items

variable {given : List String}

theorem declarations_keeping : ∀ i : Item, Keeping (declaredPlaces i) (declarations i)
  | .images decls _ => forM_keeping imageDecl_keeping decls
  | .options values _ => by
    have hkeeping := forM_keeping (fun v => Reads.keeping fun _ => option_reads v) values
    rwa [List.flatMap_eq_nil_iff.mpr fun _ _ => rfl] at hkeeping
  | .init _ _ => .pure ()
  | .stmt _ => .pure ()

theorem initialisation_keeping : ∀ i : Item, Keeping (initPlaces i) (initialisation i)
  | .init values _ => forM_keeping initValue_keeping values
  | .images _ _ => .pure ()
  | .options _ _ => .pure ()
  | .stmt _ => .pure ()

theorem statement_keeping : ∀ i : Item, Keeping (stmtPlaces i) (statement i)
  | .stmt s => stmt_keeping s .pixel
  | .images _ _ => .pure ()
  | .init _ _ => .pure ()
  | .options _ _ => .pure ()

/-- The entries of an item that is an `options` block. There is only one option. -/
def BoundOptions (b : Binding) : Item → Prop
  | .options values _ => ∀ v ∈ values, b.outside.isSome
  | _ => True

theorem declarations_declares : ∀ i : Item,
    Declares (Early given) (declarations i) (·.images i) fun _ b => BoundOptions b i
  | .images decls _ => (forM_declares imageDecl_keeping decls fun d _ => imageDecl_declares d).mono
      fun _ _ _ => trivial
  | .options values _ => by
    have hdeclares := forM_declares (d := fun D _ => D) (P := fun _ b => b.outside.isSome)
      (fun v => Reads.keeping fun _ => option_reads v) values
      fun v _ => (Reads.declares [] fun _ _ => option_reads v : Declares (Early given) _ _ _)
    simp only [List.foldl_fixed] at hdeclares
    exact hdeclares
  | .init _ _ => Reads.declares [] fun _ _ => Reads.pure fun _ _ => trivial
  | .stmt _ => Reads.declares [] fun _ _ => Reads.pure fun _ _ => trivial

/-- The entries of an item that is an `init` block. -/
def BoundInits (b : Binding) : Item → Prop
  | .init values _ => ∀ v ∈ values, BoundInit b v
  | _ => True

def BoundStatement (b : Binding) : Item → Prop
  | .stmt s => BoundStmt b [] s
  | _ => True

theorem initialisation_declares : ∀ i : Item,
    Declares (Early given) (initialisation i) (·.inits i) fun _ b => BoundInits b i
  | .init values _ => forM_declares initValue_keeping values fun v _ => initValue_declares v
  | .images _ _ => Reads.declares [] fun _ _ => Reads.pure fun _ _ => trivial
  | .options _ _ => Reads.declares [] fun _ _ => Reads.pure fun _ _ => trivial
  | .stmt _ => Reads.declares [] fun _ _ => Reads.pure fun _ _ => trivial

theorem statement_declares : ∀ i : Item,
    Declares (Inside given pixelScope []) (statement i) (·.statement i) fun _ b => BoundStatement b i
  | .stmt s => stmt_declares s .pixel []
  | .images _ _ => Reads.declares [] fun _ _ => Reads.pure fun _ _ => trivial
  | .init _ _ => Reads.declares [] fun _ _ => Reads.pure fun _ _ => trivial
  | .options _ _ => Reads.declares [] fun _ _ => Reads.pure fun _ _ => trivial

private theorem boundItem {b : Binding} :
    ∀ {i : Item}, BoundInits b i → BoundStatement b i → BoundItem b i
  | .images _ _, _, _ => .images
  | .options _ _, _, _ => .options
  | .init _ _, h, _ => .init h
  | .stmt _, _, h => .stmt h

/-- The three passes together note each name of an item at most once. -/
theorem places_count_item (i : Item) (p : Span) :
    (declaredPlaces i).count p + (initPlaces i).count p + (stmtPlaces i).count p ≤
      i.names.count p := by
  cases i with
  | images decls span => simp [declaredPlaces, initPlaces, stmtPlaces, Item.names, List.map_eq_flatMap]
  | init values span => simp [declaredPlaces, initPlaces, stmtPlaces, Item.names]
  | options values span => simp [declaredPlaces, initPlaces, stmtPlaces]
  | stmt s => simp [declaredPlaces, initPlaces, stmtPlaces, Item.names]

private theorem places_count (items : List Item) (p : Span) :
    (items.flatMap declaredPlaces).count p + (items.flatMap initPlaces).count p +
      (items.flatMap stmtPlaces).count p ≤ (items.flatMap Item.names).count p := by
  induction items with
  | nil => simp
  | cons i items ih =>
    have := places_count_item i p
    simp only [List.flatMap_cons, List.count_append]
    omega

end Items

/-! ### Scripts -/

/-- All names of a script are bound, each place has one entry, and the names outside the loops are
those of a direct reading. -/
structure Bound (script : Script) (images : List (String × ImageRole)) (b : Binding) : Prop where
  good : Good (images.map (·.1)) b.table
  declared : b.table.declared = Declared.ofScript script images
  items : ∀ i ∈ script.items, BoundItem b i
  options : ∀ i ∈ script.items, BoundOptions b i
  names : (b.names.map (·.1)).Nodup
  calls : (b.calls.map (·.1)).Nodup

section Scripts

variable (script : Script) (images : List (String × ImageRole))

/-- The walk up to the first statement. -/
def preparation : Walk Unit := do
  images.forM callerImage
  script.items.forM declarations
  script.items.forM initialisation

/-- The walk from the first statement on. -/
def conclusion : Walk Unit := do
  script.items.forM statement
  finish script.span.start

theorem walk_eq : walk script images = (do preparation script images; conclusion script) := by
  simp only [walk, preparation, conclusion, bind_assoc]

theorem callerImage_keeping (i : String × ImageRole) : Keeping [] (callerImage i) :=
  (declare_keeping _ _ _ _).last fun _ => .pure ()

theorem finish_reads {t : SymbolTable} (start : Nat) : Reads t [] (finish start) fun _ _ => True := by
  refine Reads.symbols (Reads.unless rfl fun _ => Reads.ofModify fun a ha => ?_)
  refine ⟨⟨List.prefix_append _ _, fun _ h => h, fun _ h => h, fun _ => Nat.le_add_left _ _, id⟩,
    ha, ?_⟩
  exact fun _ _ _ _ => trivial

theorem conclusion_keeping : Keeping (script.items.flatMap stmtPlaces) (conclusion script) :=
  (forM_keeping statement_keeping script.items).last fun _ => Reads.keeping fun _ => finish_reads _

private theorem preparation_keeping :
    Keeping (script.items.flatMap declaredPlaces ++ script.items.flatMap initPlaces)
      (preparation script images) := by
  have himages := forM_keeping callerImage_keeping images
  rw [List.flatMap_eq_nil_iff.mpr fun _ _ => rfl] at himages
  exact himages.bind fun _ => (forM_keeping declarations_keeping script.items).bind fun _ =>
    forM_keeping initialisation_keeping script.items

theorem walk_keeping : Keeping script.names (walk script images) := by
  rw [walk_eq]
  refine ((preparation_keeping script images).bind fun _ => conclusion_keeping script).weaken ?_
  refine List.subperm_ext_iff.mpr fun p _ => ?_
  rw [List.count_append, List.count_append]
  exact places_count script.items p

theorem preparation_declares :
    Declares (Early (images.map (·.1))) (preparation script images)
      (fun D => script.items.foldl Declared.inits
        (script.items.foldl Declared.images (images.foldl Declared.image D)))
      fun _ b => (∀ i ∈ script.items, BoundOptions b i) ∧ ∀ i ∈ script.items, BoundInits b i := by
  have himages := forM_declares (P := fun _ _ => True) callerImage_keeping images
    fun i hi => callerImage_declares i (List.mem_map_of_mem hi)
  have hdecls := forM_declares declarations_keeping script.items
    fun i _ => @declarations_declares (images.map (·.1)) i
  have hinits := forM_declares initialisation_keeping script.items
    fun i _ => @initialisation_declares (images.map (·.1)) i
  have hkeeping := (forM_keeping declarations_keeping script.items).bind fun _ =>
    forM_keeping initialisation_keeping script.items
  exact himages.after (fun _ => hkeeping) fun _ =>
    hdecls.bind (fun _ => forM_keeping initialisation_keeping script.items) fun _ =>
      hinits.mono fun _ _ hinits hdecls => ⟨hdecls, hinits⟩

private theorem conclusion_declares {given : List String} :
    Declares (Inside given pixelScope []) (conclusion script)
      (fun D => script.items.foldl Declared.statement D)
      fun _ b => ∀ i ∈ script.items, BoundStatement b i :=
  (forM_declares statement_keeping script.items fun i _ => statement_declares i).bind
    (fun _ => Reads.keeping fun _ => finish_reads _) fun _ =>
      Reads.declares [] fun _ _ => (finish_reads _).mono fun _ _ _ _ h => h

theorem early_initial (given : List String) : Early given .initial :=
  ⟨⟨SymbolTable.wellFormed_initial, fun _ h => nomatch h⟩, fun _ h => nomatch h⟩

/-- A script whose names have different places is bound, or an error is reported. -/
theorem ofScript_bound (hnames : script.names.Nodup)
    (herrors : ∀ f ∈ (ofScript script images).2, f.what.level ≠ .error) :
    Bound script images (ofScript script images).1 := by
  have hkeeps := walk_keeping script images .initial
  have hclean : Clean ((walk script images).run .initial).2 := herrors
  show Bound script images ((walk script images).run .initial).2.binding
  rw [walk_eq, run_bind] at hclean hkeeps ⊢
  have hlate := conclusion_keeping script ((preparation script images).run .initial).2
  have hprepared := preparation_declares script images .initial (hlate.clean hclean)
    (early_initial _)
  have hstep := conclusion_declares script _ hclean ⟨hprepared.inv.good, .pixel⟩
  have hplaces := List.nodup_iff_count.mpr fun p =>
    Nat.le_trans (hkeeps.places p) (List.nodup_iff_count.mp hnames p)
  exact
    { good := hstep.inv.good
      declared := hstep.declared.trans
        (congrArg (script.items.foldl Declared.statement) hprepared.declared)
      items := fun i hi => boundItem
        ((hprepared.bound _ (hlate.le hstep.table)).2 i hi) (hstep.bound _ (.refl _) i hi)
      options := (hprepared.bound _ (hlate.le hstep.table)).1
      names := (List.nodup_append.mp hplaces).1
      calls := (List.nodup_append.mp hplaces).2.1 }

end Scripts

/-! ### Entries -/

private theorem lookup_of_mem {κ ν : Type} [BEq κ] [LawfulBEq κ] {k : κ} {v : ν} {l : List (κ × ν)}
    (hnodup : (l.map (·.1)).Nodup) (h : (k, v) ∈ l) : l.lookup k = some v := by
  induction l with
  | nil => cases h
  | cons p l ih =>
    obtain ⟨hp, hl⟩ := List.nodup_cons.mp hnodup
    rw [List.lookup_cons]
    rcases List.mem_cons.mp h with rfl | h
    · simp
    · have hne : (k == p.1) = false :=
        beq_false_of_ne fun heq => hp (List.mem_map.mpr ⟨(k, v), h, heq⟩)
      rw [hne, ih hl h]

section Entries

variable {script : Script} {images : List (String × ImageRole)} {b : Binding}
  (h : Bound script images b) {span : Span}

include h

theorem referent?_eq {r : Referent} (hr : (span, r) ∈ b.names) : b.referent? span = some r :=
  lookup_of_mem h.names hr

theorem builtinAt?_eq {f : Builtin} (hf : (span, f) ∈ b.calls) : b.builtinAt? span = some f :=
  lookup_of_mem h.calls hf

theorem symbolAt?_eq {i : SymbolId} (hi : (span, .symbol i) ∈ b.names) :
    b.symbolAt? span = some i := by
  rw [Binding.symbolAt?, referent?_eq h hi]

end Entries

end RasterScript.Binding
