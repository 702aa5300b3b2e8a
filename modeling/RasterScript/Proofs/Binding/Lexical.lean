import RasterScript.Proofs.Binding.Scripts
import RasterScript.Proofs.Script.Uses

/-! Names are bound by lexical scope: the walk notes each name as the variable of the innermost
`foreach` of that name, or as a symbol that was declared before, and reports an error wherever a
name, a function or a break stands where it may not. -/
namespace RasterScript.Binding

open SymbolTable (Loops isGlobal WellFormed Extends Scoped imageScope pixelScope)

variable {α β : Type}

/-! ### Expressions -/

/-- The name was noted as what the table says, seen from the scope of the context. -/
def Resolved (t : SymbolTable) (c : Context) (b : Binding) (id : Ident) : Prop :=
  ∃ y, t.resolve c.scope id.name = some y ∧ (id.span, .symbol y.id) ∈ b.names ∧
    (c.inInit = true → y.kind ≠ .sourceImage)

/-- What the walk makes sure of where an expression mentions something. -/
def Follows (t : SymbolTable) (c : Context) (b : Binding) : Mention → Prop
  | .name id => constant? id.name = none → Resolved t c b id
  | .image id => Resolved t c b id
  | .call f => ∀ p, Builtin.ofName? f.name = some (.position p) → c.inInit = true →
      p.isPixel = false

section Expressions

variable {t : SymbolTable} {c : Context} {id : Ident}

private theorem nameShape_follows :
    Reads t [id.span] (nameShape c id) fun _ b => Follows t c b (.name id) := by
  rw [nameShape]
  cases hconst : constant? id.name with
  | some v =>
    exact (bindName_reads _ _).last fun _ => Reads.pure fun _ _ _ h => by simp [hconst] at h
  | none =>
    refine Reads.symbols ?_
    cases hs : t.resolve c.scope id.name with
    | none =>
      refine Reads.weaken ?_ (List.nil_sublist _).subperm
      exact undefined_reads.last fun _ => Reads.pure fun _ _ h => h.elim
    | some y =>
      refine (bindName_reads _ _).last fun _ => ?_
      cases hkind : y.kind with
      | sourceImage =>
        refine (readSource_reads _).last fun _ => Reads.pure fun b _ hinit hnoted _ => ?_
        exact ⟨y, hs, hnoted, fun h => absurd h (by simp [hinit])⟩
      | destImage => exact (report_reads rfl).last fun _ => Reads.pure fun _ _ h => h.elim
      | list | scalar | loopVar =>
        exact Reads.pure fun b _ hnoted _ => ⟨y, hs, hnoted, fun _ => by simp [hkind]⟩

private theorem imageName_follows :
    Reads t [id.span] (imageName c id) fun _ b => Follows t c b (.image id) := by
  refine Reads.symbols ?_
  cases hs : t.resolve c.scope id.name with
  | none => exact undefined_reads.elim.weaken (List.nil_sublist _).subperm
  | some y =>
    refine (bindName_reads _ _).last fun _ => ?_
    split
    · refine (readSource_reads _).mono fun _ b _ hinit hnoted => ?_
      exact ⟨y, hs, hnoted, fun h => absurd h (by simp [hinit])⟩
    · exact (report_reads rfl).elim
    · exact (report_reads rfl).elim

theorem Reads.asScalar {spans : List Span} {e : Expr} {Q : Binding → Prop}
    (he : Reads t spans (expr c e) fun _ b => Q b) :
    Reads t spans (Binding.scalar c e) fun _ b => Q b :=
  he.last fun shape => (needScalar_reads shape e.span).mono fun _ _ _ _ h => h

mutual

/-- Everything that an expression mentions follows the rules. -/
theorem expr_follows : ∀ e, Reads t e.names (expr c e) fun _ b => ∀ m ∈ e.mentions, Follows t c b m
  | .number _ _ => Reads.pure fun _ _ _ h => nomatch h
  | .name id span => nameShape_follows.mono fun _ _ _ h => by simpa [Expr.mentions] using h
  | .call f args span => by
    refine (callee_reads args.length).bind fun g => (arguments_follows g args).last fun _ => ?_
    refine Reads.pure fun b _ hargs hcallee => List.forall_mem_cons.mpr ⟨?_, hargs⟩
    obtain ⟨f', -, hname, -, -, hpixel⟩ := hcallee
    intro p hp
    exact hpixel p (Option.some.inj (hname.symm.trans hp))
  | .image id selectors span => by
    refine imageName_follows.bind fun _ => (checkAccess_reads selectors).after fun _ =>
      (groups_follows selectors).last fun _ => Reads.pure fun b _ hgroups himage => ?_
    exact List.forall_mem_cons.mpr ⟨himage, hgroups⟩
  | .list items span => (listItems_follows items).last fun _ => Reads.pure fun _ _ hitems => hitems
  | .unary op a span => (expr_follows a).asScalar.last fun _ => Reads.pure fun _ _ ha => ha
  | .binary op l r span => by
    show Reads t (l.names ++ r.names) (do scalar c l; scalar c r; return Shape.scalar) _
    refine (expr_follows l).asScalar.bind fun _ => (expr_follows r).asScalar.last fun _ => ?_
    exact Reads.pure fun _ _ hr hl => List.forall_mem_append.mpr ⟨hl, hr⟩
  | .cond e y n span => by
    show Reads t _ (do scalar c e; scalar c y; scalar c n; return Shape.scalar) _
    refine (expr_follows e).asScalar.bind fun _ => (expr_follows y).asScalar.bind fun _ =>
      (expr_follows n).asScalar.last fun _ => Reads.pure fun _ _ hn hy he => ?_
    exact List.forall_mem_append.mpr ⟨he, List.forall_mem_append.mpr ⟨hy, hn⟩⟩

private theorem arguments_follows (g : Option Builtin) :
    ∀ es, Reads t (exprsNames es) (arguments c g es)
    fun _ b => ∀ m ∈ exprsMentions es, Follows t c b m
  | [] => Reads.pure fun _ _ _ h => nomatch h
  | e :: es => by
    have hes : Reads t (exprsNames es) (arguments c g es) fun _ b =>
        (∀ m ∈ e.mentions, Follows t c b m) → ∀ m ∈ exprsMentions (e :: es), Follows t c b m :=
      (arguments_follows g es).mono fun _ _ _ hes he => List.forall_mem_append.mpr ⟨he, hes⟩
    refine (expr_follows e).bind fun shape => ?_
    cases g with
    | none => exact hes
    | some f => exact Reads.unless rfl fun _ => hes.mono fun _ _ _ h _ => h

private theorem listItems_follows : ∀ es, Reads t (exprsNames es) (listItems c es) fun _ b =>
    ∀ m ∈ exprsMentions es, Follows t c b m
  | [] => Reads.pure fun _ _ _ h => nomatch h
  | e :: es => by
    refine (expr_follows e).bind fun shape => Reads.unless rfl fun _ => ?_
    exact (listItems_follows es).mono fun _ _ _ hes _ he => List.forall_mem_append.mpr ⟨he, hes⟩

private theorem groups_follows : ∀ ss, Reads t (groupsNames ss) (groups c ss) fun _ b =>
    ∀ m ∈ groupsMentions ss, Follows t c b m
  | [] => Reads.pure fun _ _ _ h => nomatch h
  | s :: ss => (group_follows s).bind fun _ => (groups_follows ss).mono fun _ _ _ hss hs =>
      List.forall_mem_append.mpr ⟨hs, hss⟩

private theorem group_follows : ∀ s, Reads t (groupNames s) (group c s) fun _ b =>
    ∀ m ∈ groupMentions s, Follows t c b m
  | ⟨cs, _⟩ => coords_follows cs

private theorem coords_follows : ∀ cs, Reads t (coordsNames cs) (coords c cs) fun _ b =>
    ∀ m ∈ coordsMentions cs, Follows t c b m
  | [] => Reads.pure fun _ _ _ h => nomatch h
  | x :: xs => (coord_follows x).bind fun _ => (coords_follows xs).mono fun _ _ _ hxs hx =>
      List.forall_mem_append.mpr ⟨hx, hxs⟩

private theorem coord_follows : ∀ x, Reads t (coordNames x) (coord c x) fun _ b =>
    ∀ m ∈ coordMentions x, Follows t c b m
  | ⟨_, value, _⟩ => (expr_follows value).asScalar

end

end Expressions

/-! ### What a mention means -/

/-- What a name means by lexical scope, given the variables of the `foreach` statements around it:
the innermost variable of that name, or else a variable of the pixel that was declared before, or
else a symbol of the image scope. -/
inductive Means (b : Binding) (vars : List Ident) (id : Ident) (y : Symbol) : Prop where
  | loop {v} : vars.find? (·.name = id.name) = some v → y.kind = .loopVar → y.span = v.span →
      (v.span, .symbol y.id) ∈ b.names → Means b vars id y
  | pixel : vars.find? (·.name = id.name) = none → y.scope = pixelScope →
      y.span.Precedes id.span → Means b vars id y
  | image : vars.find? (·.name = id.name) = none → y.scope = imageScope → Means b vars id y

/-- The name was noted as the symbol that it means by lexical scope. -/
structure LexicalName (b : Binding) (site : Site) (id : Ident) (y : Symbol) : Prop where
  mem : y ∈ b.table.symbols
  name : y.name = id.name
  noted : (id.span, .symbol y.id) ∈ b.names
  means : Means b site.loops id y
  init : site.inInit = true → y.kind ≠ .sourceImage

/-- What holds of a use at its site, if no error is reported. -/
def Proper (b : Binding) : Site × Use → Prop
  | (site, .mention (.name id)) => constant? id.name = none → ∃ y, LexicalName b site id y
  | (site, .mention (.image id)) => ∃ y, LexicalName b site id y
  | (site, .mention (.call f)) => ∀ p, Builtin.ofName? f.name = some (.position p) →
      site.inInit = true → p.isPixel = false
  | (site, .target id) => site.inLoop = true →
      ∃ y ∈ b.table.symbols, isGlobal y ∧ y.name = id.name ∧ y.kind ≠ .destImage
  | (site, .leave) => site.inLoop = true

/-- The variables of the loops around a place, each with the symbol that it declared. -/
def LoopsOf (b : Binding) (vars : List Ident) (loops : Loops) : Prop :=
  List.Forall₂ (fun v l => l.1 = v.name ∧ (v.span, .symbol l.2) ∈ b.names ∧
    ∃ y, b.table.symbol? l.2 = some y ∧ y.id = l.2 ∧ y.name = v.name ∧ y.kind = .loopVar ∧
      y.span = v.span) vars loops

theorem LoopsOf.find? {b : Binding} {vars : List Ident} {loops : Loops} (h : LoopsOf b vars loops)
    (name : String) :
    (loops.lookup name = none ∧ vars.find? (·.name = name) = none) ∨
      ∃ v i y, loops.lookup name = some i ∧ vars.find? (·.name = name) = some v ∧
        (v.span, .symbol i) ∈ b.names ∧ b.table.symbol? i = some y ∧ y.id = i ∧ y.name = name ∧
        y.kind = .loopVar ∧ y.span = v.span := by
  induction h with
  | nil => exact .inl ⟨rfl, rfl⟩
  | @cons v l vars loops hl _ ih =>
    obtain ⟨hname, hnoted, y, hy, hid, hyname, hkind, hspan⟩ := hl
    rw [List.lookup_cons, List.find?_cons, hname]
    by_cases hv : v.name = name
    · subst hv
      exact .inr ⟨v, l.2, y, by simp, by simp, hnoted, hy, hid, hyname, hkind, hspan⟩
    · simpa [hv, beq_false_of_ne (Ne.symm hv)] using ih

/-- The site of a context with the given loops around it. -/
def Context.site (c : Context) (vars : List Ident) : Site := ⟨vars, c.inLoop, c.inInit⟩

/-- Places of the pixel inside loops, where only what is declared before the given places is known
of the pixel. -/
structure Before (given : List String) (scope : ScopeId) (loops : Loops) (later : List Span)
    (t : SymbolTable) : Prop where
  inside : Inside given scope loops t
  earlier : ∀ y ∈ t.symbols, y.scope = pixelScope → ∀ p ∈ later, y.span.Precedes p

section Proper

variable {given : List String} {t : SymbolTable} {c : Context} {loops : Loops} {b : Binding}
  {vars : List Ident} {spans later : List Span}

theorem Before.mono (h : Before given c.scope loops spans t) (hlater : later ⊆ spans) :
    Before given c.scope loops later t :=
  ⟨h.inside, fun y hy hscope p hp => h.earlier y hy hscope p (hlater hp)⟩

private theorem scope_of_global {y : Symbol} (h : isGlobal y) :
    y.scope = pixelScope ∨ y.scope = imageScope := by
  simp only [isGlobal, decide_eq_true_eq] at h
  rcases Nat.lt_succ_iff_lt_or_eq.mp h with hlt | heq
  · exact .inr (Nat.lt_one_iff.mp hlt)
  · exact .inl heq

/-- What the table says is what lexical scope says. -/
theorem Resolved.lexical (h : Before given c.scope loops later t) (hb : Extends t b.table)
    (hloops : LoopsOf b vars loops) {id : Ident} (hid : id.span ∈ later)
    (hr : Resolved t c b id) : ∃ y, LexicalName b (c.site vars) id y := by
  obtain ⟨y, hy, hnoted, hinit⟩ := hr
  rw [SymbolTable.resolve_eq h.inside.good.wf h.inside.nested] at hy
  rcases hloops.find? id.name with
    ⟨hnone, hvars⟩ | ⟨v, i, z, hi, hv, hvnoted, hz, hzid, hzname, hkind, hspan⟩
  · rw [hnone] at hy
    obtain ⟨hmem, hglobal, hname⟩ := h.inside.good.wf.mem_of_global? hy
    refine ⟨y, hb.mem hmem, hname, hnoted, ?_, hinit⟩
    rcases scope_of_global hglobal with hscope | hscope
    · exact .pixel hvars hscope (h.earlier y hmem hscope _ hid)
    · exact .image hvars hscope
  · rw [hi] at hy
    obtain rfl := Option.some.inj ((hb.symbol? hy).symm.trans hz)
    subst hzid
    exact ⟨y, List.mem_of_getElem? hz, hzname, hnoted, .loop hv hkind hspan hvnoted, hinit⟩

theorem Follows.proper (h : Before given c.scope loops later t) (hb : Extends t b.table)
    (hloops : LoopsOf b vars loops) {m : Mention} (hm : m.place ∈ later) (hf : Follows t c b m) :
    Proper b (c.site vars, .mention m) := by
  cases m with
  | name id => exact fun hconst => (hf hconst).lexical h hb hloops hm
  | image id => exact hf.lexical h hb hloops hm
  | call f => exact hf

end Proper

/-! ### Statements -/

/-- A step from tables of one kind to tables of another, if it reports no error; a property of its
result holds in every later binding. -/
def Leads (I J : SymbolTable → Prop) (x : Walk α) (P : α → Binding → Prop) : Prop :=
  ∀ a, Clean (x.run a).2 → I a.binding.table →
    J (x.run a).2.binding.table ∧ Extends a.binding.table (x.run a).2.binding.table ∧
      ∀ b, Le (x.run a).2.binding b → P (x.run a).1 b

section Rules

variable {I J K : SymbolTable → Prop} {x : Walk α} {f : α → Walk β} {spans : List Span}
  {P : α → Binding → Prop} {Q : β → Binding → Prop}

theorem Leads.mono {P' : α → Binding → Prop} (hx : Leads I J x P) (h : ∀ v b, P v b → P' v b) :
    Leads I J x P' := by
  intro a hclean hI
  obtain ⟨hJ, htable, hpost⟩ := hx a hclean hI
  exact ⟨hJ, htable, fun b hb => h _ b (hpost b hb)⟩

theorem Leads.weaken {I' J' : SymbolTable → Prop} (hx : Leads I J x P) (hI : ∀ t, I' t → I t)
    (hJ : ∀ t, J t → J' t) : Leads I' J' x P := by
  intro a hclean hI'
  obtain ⟨hJt, hrest⟩ := hx a hclean (hI _ hI')
  exact ⟨hJ _ hJt, hrest⟩

theorem Leads.bind (hx : Leads I J x P) (hk : ∀ v, Keeping spans (f v))
    (hf : ∀ v, Leads J K (f v) fun w b => P v b → Q w b) : Leads I K (x >>= f) Q := by
  intro a hclean hI
  have hkeeps := hk (x.run a).1 (x.run a).2
  obtain ⟨hJ, hext, hP⟩ := hx a (hkeeps.clean hclean) hI
  obtain ⟨hK, hmore, hQ⟩ := hf (x.run a).1 (x.run a).2 hclean hJ
  refine ⟨hK, hext.trans hmore, fun b hb => ?_⟩
  exact hQ b hb (hP b ((hkeeps.le hmore).trans hb))

theorem Reads.leads (spans : List Span) (h : ∀ t, I t → Reads t spans x P) : Leads I I x P := by
  intro a hclean hI
  obtain ⟨-, htable, hpost⟩ := h _ hI a rfl
  exact ⟨htable.symm ▸ hI, htable ▸ .refl _, hpost hclean⟩

theorem Declares.leads {d : Direct.Declared → Direct.Declared} (h : Declares I x d P) :
    Leads I I x P := by
  intro a hclean hI
  obtain ⟨hinv, htable, -, hbound⟩ := h a hclean hI
  exact ⟨hinv, htable, hbound⟩

end Rules

section Statements

variable {given : List String} {c : Context} {loops : Loops} {vars : List Ident}
  {spans later : List Span}

/-- All of the uses are proper, if these are the variables of the loops around them. -/
def AllProper (b : Binding) (vars : List Ident) (loops : Loops) (us : List (Site × Use)) : Prop :=
  LoopsOf b vars loops → ∀ u ∈ us, Proper b u

theorem AllProper.append {b : Binding} {us ws : List (Site × Use)} (hus : AllProper b vars loops us)
    (hws : AllProper b vars loops ws) : AllProper b vars loops (us ++ ws) :=
  fun hloops => List.forall_mem_append.mpr ⟨hus hloops, hws hloops⟩

theorem AllProper.cons {b : Binding} {u : Site × Use} {us : List (Site × Use)} (hu : Proper b u)
    (hus : AllProper b vars loops us) : AllProper b vars loops (u :: us) :=
  fun hloops => List.forall_mem_cons.mpr ⟨hu, hus hloops⟩

private theorem mentions_reads (vars : List Ident) {x : Walk α} {t : SymbolTable}
    {names : List Span} {ms : List Mention}
    (hx : Reads t names x fun _ b => ∀ m ∈ ms, Follows t c b m)
    (h : Before given c.scope loops spans t) (hms : ∀ m ∈ ms, m.place ∈ spans) :
    Reads t names x fun _ b => AllProper b vars loops ((c.site vars).all ms) := by
  refine hx.mono fun _ b hb hfollows hloops u hu => ?_
  obtain ⟨m, hm, rfl⟩ := List.mem_map.mp hu
  exact (hfollows m hm).proper h hb hloops (hms m hm)

private theorem scalar_leads (vars : List Ident) (e : Expr) (he : e.names ⊆ spans) :
    Leads (Before given c.scope loops spans) (Before given c.scope loops spans) (scalar c e)
      fun _ b => AllProper b vars loops ((c.site vars).all e.mentions) :=
  Reads.leads e.names fun _ h =>
    mentions_reads vars (expr_follows e).asScalar h fun _ hm => he (Expr.place_mem hm)

private theorem source_leads (vars : List Ident) : ∀ s : Source, s.names ⊆ spans →
    Leads (Before given c.scope loops spans) (Before given c.scope loops spans) (source c s)
      fun _ b => AllProper b vars loops ((c.site vars).all s.mentions)
  | .list items, hs => by
    refine Reads.leads items.names fun t h =>
      mentions_reads vars ?_ h fun _ hm => hs (Expr.place_mem hm)
    refine (expr_follows items).last fun shape => ?_
    cases shape with
    | scalar => exact (report_reads rfl).elim
    | list => exact Reads.pure fun _ _ he => he
  | .range low high, hs => by
    obtain ⟨hlow, hhigh⟩ := List.append_subset.mp hs
    refine (scalar_leads vars low hlow).bind (fun _ => scalar_keeping high) fun _ =>
      (scalar_leads vars high hhigh).mono fun _ b hhigh hlow => ?_
    rw [Source.mentions, Site.all, List.map_append]
    exact hlow.append hhigh

/-- An assignment without an error finds its target, or makes a variable of the pixel of it. -/
theorem assignValue_cases {target : Ident} {op : AssignOp} {shape : Shape} {span : Span}
    {a : Analysis} (hclean : Clean ((assignValue c target op shape span).run a).2)
    (h : Inside given c.scope loops a.binding.table) :
    (∃ y, a.binding.table.resolve c.scope target.name = some y ∧ y.kind ≠ .loopVar ∧
      (c.inLoop = true → y.kind ≠ .destImage) ∧
      ((assignValue c target op shape span).run a).2.binding.table = a.binding.table) ∨
    ((assignValue c target op shape span).run a).2.binding.table =
      a.binding.table.withSymbol pixelScope target.name shape.kind target.span := by
  by_cases hconst : (constant? target.name).isSome
  · rw [assignValue, if_pos hconst] at hclean
    exact absurd hclean (report_not_clean rfl a)
  · rw [assignValue, if_neg hconst, symbols_bind_run] at hclean ⊢
    cases hs : a.binding.table.resolve c.scope target.name with
    | none =>
      right
      rw [hs] at hclean
      by_cases hop : op = .set
      · have hlookup := (Option.or_eq_none_iff.mp (h.not_found hs).2).1
        simp only [hop, ne_eq, not_true_eq_false, if_false]
        rw [run_bind, declare_new_run h.good.wf.toInStep hlookup]
        rfl
      · simp only [hop, ne_eq, not_false_eq_true, if_true] at hclean
        exact absurd hclean (report_not_clean rfl a)
    | some y =>
      left
      rw [hs] at hclean
      have hreads : Reads a.binding.table [target.span]
          (do bindName target.span (.symbol y.id); assignTo c target op shape span y) fun _ _ =>
            y.kind ≠ .loopVar ∧ (c.inLoop = true → y.kind ≠ .destImage) :=
        (bindName_reads _ _).last fun _ => (assignTo_reads h hs).mono
          fun _ _ _ hto _ => ⟨hto.1, hto.2.2⟩
      obtain ⟨-, htable, hpost⟩ := hreads a rfl
      obtain ⟨hkind, hdest⟩ := hpost hclean _ (.refl _)
      exact ⟨y, rfl, hkind, hdest, htable⟩

private theorem assignValue_leads (vars : List Ident) (target : Ident) (op : AssignOp)
    (shape : Shape) (span : Span) (hlater : ∀ p ∈ later, target.span.Precedes p) :
    Leads (Before given c.scope loops later) (Before given c.scope loops later)
      (assignValue c target op shape span) fun _ b => Proper b (c.site vars, .target target) := by
  intro a hclean h
  obtain ⟨hinv, hext, -, -⟩ := assignValue_declares a hclean h.inside
  rcases assignValue_cases hclean h.inside with ⟨y, hy, hkind, hdest, htable⟩ | htable
  · refine ⟨⟨hinv, by rw [htable]; exact h.earlier⟩, hext, fun b hb hloop => ?_⟩
    obtain ⟨hmem, hname⟩ := h.inside.mem_of_resolve hy hkind
    have hglobal : isGlobal y := by
      cases hl : loops.lookup target.name with
      | none => exact (h.inside.sees.global hl hy).2.1
      | some i =>
        obtain ⟨z, hz, -, hzkind⟩ := h.inside.sees.loop hl
        rw [Option.some.inj (hz.symm.trans hy)] at hzkind
        exact absurd hzkind hkind
    exact ⟨y, (hext.trans hb.table).mem hmem, hglobal, hname, hdest hloop⟩
  · have hnew : (⟨a.binding.table.symbols.length, target.name, shape.kind, pixelScope, target.span⟩ :
        Symbol) ∈ ((assignValue c target op shape span).run a).2.binding.table.symbols := by
      rw [htable]
      exact List.mem_append_right _ (List.mem_singleton_self _)
    refine ⟨⟨hinv, fun y hy hscope p hp => ?_⟩, hext, fun b hb hloop => ?_⟩
    · rw [htable] at hy
      rcases List.mem_append.mp hy with hy | hy
      · exact h.earlier y hy hscope p hp
      · rw [List.mem_singleton.mp hy]
        exact hlater p hp
    · refine ⟨_, hb.table.mem hnew, rfl, rfl, ?_⟩
      cases shape <;> simp [Shape.kind]

private theorem assign_leads (vars : List Ident) (target : Ident) (op : AssignOp) (value : Expr)
    (span : Span) (hordered : ((target.span :: value.names) ++ later).Pairwise Span.Precedes) :
    Leads (Before given c.scope loops ((target.span :: value.names) ++ later))
      (Before given c.scope loops later) (assign c target op value)
      fun _ b => AllProper b vars loops ((Stmt.assign target op value span).uses (c.site vars)) := by
  have hvalue : Leads (Before given c.scope loops ((target.span :: value.names) ++ later))
      (Before given c.scope loops ((target.span :: value.names) ++ later)) (expr c value)
      fun _ b => AllProper b vars loops ((c.site vars).all value.mentions) := by
    refine Reads.leads value.names fun _ h =>
      mentions_reads vars (expr_follows value) h fun m hm => ?_
    exact List.mem_append_left _ (List.mem_cons_of_mem _ (Expr.place_mem hm))
  have hlater : ∀ p ∈ later, target.span.Precedes p := fun p hp =>
    (List.pairwise_cons.mp hordered).1 p (List.mem_append_right _ hp)
  rw [assign_eq]
  refine hvalue.bind (fun _ => assignValue_keeping target op _ _) fun shape => ?_
  refine ((assignValue_leads vars target op shape value.span hlater).weaken ?_ fun _ h => h).mono ?_
  · exact fun _ h => h.mono (List.subset_append_right _ _)
  · exact fun _ _ htarget hvalue => hvalue.cons htarget

/-- The loop variables of the body of a `foreach`. -/
theorem LoopsOf.within {b : Binding} {var : Ident} {t : SymbolTable} {scope : ScopeId}
    (hloops : LoopsOf b vars loops) (hext : Extends (t.withLoop scope var.name var.span) b.table)
    (hnoted : (var.span, .symbol t.symbols.length) ∈ b.names) :
    LoopsOf b (var :: vars) ((var.name, t.symbols.length) :: loops) :=
  .cons ⟨rfl, hnoted, _, hext.symbol? SymbolTable.symbol?_withSymbol, rfl, rfl, rfl, rfl⟩ hloops

theorem Before.withLoop {t : SymbolTable} (h : Before given c.scope loops spans t) (var : Ident)
    (hlater : later ⊆ spans) :
    Before given t.scopes.length ((var.name, t.symbols.length) :: loops) later
      (t.withLoop c.scope var.name var.span) := by
  refine ⟨h.inside.withLoop var, fun y hy hscope p hp => ?_⟩
  rcases List.mem_append.mp hy with hy | hy
  · exact h.earlier y hy hscope p (hlater hp)
  · rw [List.mem_singleton.mp hy] at hscope
    have htwo := h.inside.good.wf.two_le
    have hone : t.scopes.length = 1 := hscope
    omega

private theorem loop_leads (vars : List Ident) (var : Ident) (body : Stmt)
    (hbody : ∀ scope id, Leads (Before given scope ((var.name, id) :: loops) (body.names ++ later))
      (Before given scope ((var.name, id) :: loops) later)
      (stmt { c with scope := scope, inLoop := true } body)
      fun _ b => AllProper b (var :: vars) ((var.name, id) :: loops)
        (body.uses ((c.site vars).within var)))
    (hspans : body.names ++ later ⊆ spans) :
    Leads (Before given c.scope loops spans) (Before given c.scope loops later)
      (do
        let scope ← openLoop c.scope var
        stmt { c with scope := scope, inLoop := true } body)
      fun _ b => AllProper b vars loops (body.uses ((c.site vars).within var)) := by
  intro a hclean h
  rw [run_bind, openLoop_run h.inside.good.wf] at hclean ⊢
  obtain ⟨hlast, hext, hpost⟩ := hbody _ _ _ hclean (h.withLoop var hspans)
  have hkeeps := stmt_keeping body { c with scope := a.binding.table.scopes.length, inLoop := true }
    { a with
      binding.table := a.binding.table.withLoop c.scope var.name var.span
      binding.names := (var.span, .symbol a.binding.table.symbols.length) :: a.binding.names }
  have hopen : Extends a.binding.table (a.binding.table.withLoop c.scope var.name var.span) :=
    SymbolTable.extends_withLoop c.scope
  refine ⟨⟨h.inside.extend (hopen.trans hext) hlast.inside.good, hlast.earlier⟩,
    hopen.trans hext, ?_⟩
  intro b hb hloops
  exact hpost b hb (hloops.within (hext.trans hb.table)
    (hb.names _ (hkeeps.names _ List.mem_cons_self)))

mutual

/-- The walk through a statement makes sure that all uses in it are proper. -/
theorem stmt_leads : ∀ (s : Stmt) (c : Context) (loops : Loops) (vars : List Ident)
    (later : List Span), (s.names ++ later).Pairwise Span.Precedes →
    Leads (Before given c.scope loops (s.names ++ later)) (Before given c.scope loops later)
      (stmt c s) fun _ b => AllProper b vars loops (s.uses (c.site vars))
  | .assign target op value span, c, loops, vars, later, hordered =>
    assign_leads vars target op value span hordered
  | .cond test yes no span, c, loops, vars, later, hordered => by
    simp only [Stmt.names, List.append_assoc] at hordered ⊢
    have hrest := (List.pairwise_append.mp hordered).2.1
    have hyes := (stmt_leads yes c loops vars (elseNames no ++ later) hrest).bind
      (fun _ => other_keeping no c) fun _ =>
        (other_leads no c loops vars later (List.pairwise_append.mp hrest).2.1).mono
          fun _ _ hno hyes => hyes.append hno
    refine (scalar_leads vars test (List.subset_append_left _ _)).bind
      (fun _ => (stmt_keeping yes c).bind fun _ => other_keeping no c) fun _ => ?_
    refine (hyes.weaken ?_ fun _ h => h).mono fun _ _ hboth htest => htest.append hboth
    exact fun _ h => h.mono (List.subset_append_right _ _)
  | .loop kind test body span, c, loops, vars, later, hordered => by
    simp only [Stmt.names, List.append_assoc] at hordered ⊢
    have hbody := stmt_leads body { c with inLoop := true } loops vars later
      (List.pairwise_append.mp hordered).2.1
    refine (scalar_leads vars test (List.subset_append_left _ _)).bind
      (fun _ => stmt_keeping body _) fun _ => ?_
    refine (hbody.weaken ?_ fun _ h => h).mono fun _ _ hbody htest => htest.append hbody
    exact fun _ h => h.mono (List.subset_append_right _ _)
  | .foreach var source body span, c, loops, vars, later, hordered => by
    simp only [Stmt.names, List.cons_append, List.append_assoc] at hordered ⊢
    have hrest := (List.pairwise_append.mp (List.pairwise_cons.mp hordered).2).2.1
    rw [stmt_foreach]
    refine (source_leads vars source ?_).bind
      (fun _ => (openLoop_keeping _ _).bind fun _ => stmt_keeping body _) fun _ => ?_
    · exact fun p hp => List.mem_cons_of_mem _ (List.mem_append_left _ hp)
    · refine (loop_leads vars var body (fun scope id => stmt_leads body _ _ _ _ hrest) ?_).mono ?_
      · exact fun p hp => List.mem_cons_of_mem _ (List.mem_append_right _ hp)
      · exact fun _ _ hbody hsource => hsource.append hbody
  | .block body span, c, loops, vars, later, hordered =>
    stmts_leads body c loops vars later hordered
  | .breakIf test span, c, loops, vars, later, hordered => by
    have htest : Leads (Before given c.scope loops (test.names ++ later))
        (Before given c.scope loops (test.names ++ later)) (stmt c (.breakIf test span))
        fun _ b => AllProper b vars loops ((Stmt.breakIf test span).uses (c.site vars)) := by
      rw [stmt]
      refine Reads.leads test.names fun t h => Reads.unless rfl fun _ => ?_
      refine (mentions_reads vars (expr_follows test).asScalar h fun m hm => ?_).mono ?_
      · exact List.mem_append_left _ (Expr.place_mem hm)
      · intro _ b _ hall hloop
        have hin : c.inLoop = true := by simpa using hloop
        exact hall.cons hin
    exact htest.weaken (fun _ h => h) fun _ h => h.mono (List.subset_append_right _ _)
  | .leave span, c, loops, vars, later, hordered => by
    rw [stmt]
    refine Reads.leads [] fun t h => ?_
    split
    · next hloop => exact Reads.pure fun _ _ => AllProper.cons hloop fun _ _ h => nomatch h
    · exact (report_reads rfl).elim

private theorem other_leads : ∀ (s : Option Stmt) (c : Context) (loops : Loops) (vars : List Ident)
    (later : List Span), (elseNames s ++ later).Pairwise Span.Precedes →
    Leads (Before given c.scope loops (elseNames s ++ later)) (Before given c.scope loops later)
      (other c s) fun _ b => AllProper b vars loops (elseUses (c.site vars) s)
  | none, _, _, _, _, _ => Reads.leads [] fun _ _ => Reads.pure fun _ _ _ _ h => nomatch h
  | some s, c, loops, vars, later, hordered => stmt_leads s c loops vars later hordered

private theorem stmts_leads : ∀ (ss : List Stmt) (c : Context) (loops : Loops) (vars : List Ident)
    (later : List Span), (stmtsNames ss ++ later).Pairwise Span.Precedes →
    Leads (Before given c.scope loops (stmtsNames ss ++ later)) (Before given c.scope loops later)
      (stmts c ss) fun _ b => AllProper b vars loops (stmtsUses (c.site vars) ss)
  | [], _, _, _, _, _ => Reads.leads [] fun _ _ => Reads.pure fun _ _ _ _ h => nomatch h
  | s :: ss, c, loops, vars, later, hordered => by
    simp only [stmtsNames, List.append_assoc] at hordered ⊢
    refine (stmt_leads s c loops vars (stmtsNames ss ++ later) hordered).bind
      (fun _ => stmts_keeping ss c) fun _ => ?_
    exact (stmts_leads ss c loops vars later (List.pairwise_append.mp hordered).2.1).mono
      fun _ _ hss hs => hs.append hss

end

end Statements

/-! ### Scripts -/

section Scripts

variable {given : List String}

/-- The uses of an item that each of the passes over the items makes sure of. -/
def optionUses : Item → List (Site × Use)
  | .options values _ => values.flatMap fun v => Site.top.all v.value.mentions
  | _ => []

def initUses : Item → List (Site × Use)
  | .init values _ => values.flatMap fun v => Site.init.all v.value.mentions
  | _ => []

def stmtUses : Item → List (Site × Use)
  | .stmt s => s.uses .top
  | _ => []

/-- A constant expression mentions nothing but constants. -/
theorem constantValue?_mentions {e : Expr} {v : Float} (h : constantValue? e = some v)
    (b : Binding) : ∀ u ∈ Site.top.all e.mentions, Proper b u := by
  fun_induction constantValue? e generalizing v with
  | case1 v span => exact fun _ hu => nomatch hu
  | case2 id span =>
    intro u hu
    obtain rfl := List.mem_singleton.mp hu
    intro hconst
    rw [hconst] at h
    cases h
  | case3 a span ih =>
    obtain ⟨w, hw, -⟩ := Option.map_eq_some_iff.mp h
    exact ih hw
  | case4 a span ih => exact ih h
  | case5 => cases h

private theorem option_proper {t : SymbolTable} (v : NamedValue) :
    Reads t [] (option v) fun _ b => ∀ u ∈ Site.top.all v.value.mentions, Proper b u := by
  have hreads := @option_reads t v
  intro a ha
  obtain ⟨hkeeps, htable, -⟩ := hreads a ha
  refine ⟨hkeeps, htable, fun hclean b hb => ?_⟩
  rw [option] at hclean
  split at hclean
  · exact absurd hclean (report_not_clean rfl a)
  · split at hclean
    · next x hx => exact constantValue?_mentions hx b
    · exact absurd hclean (report_not_clean rfl a)

theorem Early.proper {t : SymbolTable} {b : Binding} (h : Early given t) (hb : Extends t b.table)
    {m : Mention} (hf : Follows t .init b m) : Proper b (.init, .mention m) := by
  have hlexical {id : Ident} (hr : Resolved t .init b id) : ∃ y, LexicalName b .init id y := by
    obtain ⟨y, hy, hnoted, hinit⟩ := hr
    rw [show Context.init.scope = imageScope from rfl, SymbolTable.resolve_image h.good.wf] at hy
    obtain ⟨hmem, hscope, hname⟩ := h.good.wf.mem_of_lookup hy
    exact ⟨y, hb.mem hmem, hname, hnoted, .image rfl hscope, hinit⟩
  cases m with
  | name id => exact fun hconst => hlexical (hf hconst)
  | image id => exact hlexical hf
  | call f => exact hf

private theorem initValue_proper (v : NamedValue) :
    Leads (Early given) (Early given) (initValue v) fun _ b =>
      ∀ u ∈ Site.init.all v.value.mentions, Proper b u := by
  have hvalue : Leads (Early given) (Early given) (scalar .init v.value) fun _ b =>
      ∀ u ∈ Site.init.all v.value.mentions, Proper b u := by
    refine Reads.leads v.value.names fun t h => (expr_follows v.value).asScalar.mono ?_
    intro _ b hb hfollows u hu
    obtain ⟨m, hm, rfl⟩ := List.mem_map.mp hu
    exact h.proper hb (hfollows m hm)
  rw [initValue_eq]
  exact hvalue.bind (fun _ => initTarget_keeping v.ident) fun _ =>
    (initTarget_declares v.ident).leads.mono fun _ _ _ h => h

theorem forM_leads {I : SymbolTable → Prop} {f : α → Walk Unit} {P : α → Binding → Prop}
    {spans : α → List Span} (hk : ∀ x, Keeping (spans x) (f x)) (xs : List α)
    (hf : ∀ x ∈ xs, Leads I I (f x) fun _ => P x) :
    Leads I I (xs.forM f) fun _ b => ∀ x ∈ xs, P x b := by
  induction xs with
  | nil => exact Reads.leads [] fun _ _ => Reads.pure fun _ _ _ h => nomatch h
  | cons x xs ih =>
    obtain ⟨hx, hxs⟩ := List.forall_mem_cons.mp hf
    exact hx.bind (fun _ => forM_keeping hk xs) fun _ => (ih hxs).mono fun _ _ hxs hx =>
      List.forall_mem_cons.mpr ⟨hx, hxs⟩

theorem forall_mem_flatMap {β : Type} {xs : List α} {f : α → List β} {P : β → Prop}
    (h : ∀ x ∈ xs, ∀ y ∈ f x, P y) : ∀ y ∈ xs.flatMap f, P y := by
  intro y hy
  obtain ⟨x, hx, hy⟩ := List.mem_flatMap.mp hy
  exact h x hx y hy

private theorem declarations_proper (i : Item) :
    Leads (Early given) (Early given) (declarations i)
      fun _ b => ∀ u ∈ optionUses i, Proper b u := by
  cases i with
  | options values span =>
    refine (forM_leads (fun v => Reads.keeping fun _ => option_reads v) values fun v _ =>
      Reads.leads [] fun _ _ => option_proper v).mono ?_
    exact fun _ _ h => forall_mem_flatMap h
  | images decls span => exact (declarations_declares _).leads.mono fun _ _ _ _ h => nomatch h
  | init values span => exact (declarations_declares _).leads.mono fun _ _ _ _ h => nomatch h
  | stmt s => exact (declarations_declares _).leads.mono fun _ _ _ _ h => nomatch h

private theorem initialisation_proper (i : Item) :
    Leads (Early given) (Early given) (initialisation i)
      fun _ b => ∀ u ∈ initUses i, Proper b u := by
  cases i with
  | init values span =>
    refine (forM_leads initValue_keeping values fun v _ => initValue_proper v).mono ?_
    exact fun _ _ h => forall_mem_flatMap h
  | images decls span => exact (initialisation_declares _).leads.mono fun _ _ _ _ h => nomatch h
  | options values span => exact (initialisation_declares _).leads.mono fun _ _ _ _ h => nomatch h
  | stmt s => exact (initialisation_declares _).leads.mono fun _ _ _ _ h => nomatch h

private theorem statement_proper (i : Item) (later : List Span)
    (hordered : (stmtPlaces i ++ later).Pairwise Span.Precedes) :
    Leads (Before given pixelScope [] (stmtPlaces i ++ later)) (Before given pixelScope [] later)
      (statement i) fun _ b => ∀ u ∈ stmtUses i, Proper b u := by
  cases i with
  | stmt s => exact (stmt_leads s .pixel [] [] later hordered).mono fun _ _ h => h .nil
  | images decls span => exact Reads.leads [] fun _ _ => Reads.pure fun _ _ _ h => nomatch h
  | init values span => exact Reads.leads [] fun _ _ => Reads.pure fun _ _ _ h => nomatch h
  | options values span => exact Reads.leads [] fun _ _ => Reads.pure fun _ _ _ h => nomatch h

private theorem statements_proper (items : List Item)
    (hordered : (items.flatMap stmtPlaces).Pairwise Span.Precedes) :
    Leads (Before given pixelScope [] (items.flatMap stmtPlaces)) (Before given pixelScope [] [])
      (items.forM statement) fun _ b => ∀ i ∈ items, ∀ u ∈ stmtUses i, Proper b u := by
  induction items with
  | nil => exact Reads.leads [] fun _ _ => Reads.pure fun _ _ _ h => nomatch h
  | cons i items ih =>
    rw [List.flatMap_cons] at hordered ⊢
    refine (statement_proper i _ hordered).bind (fun _ => forM_keeping statement_keeping items) ?_
    exact fun _ => (ih (List.pairwise_append.mp hordered).2.1).mono fun _ _ hitems hi =>
      List.forall_mem_cons.mpr ⟨hi, hitems⟩

private theorem proper_of_passes {b : Binding} {i : Item} (hoption : ∀ u ∈ optionUses i, Proper b u)
    (hinit : ∀ u ∈ initUses i, Proper b u) (hstmt : ∀ u ∈ stmtUses i, Proper b u) :
    ∀ u ∈ i.uses, Proper b u := by
  cases i with
  | images decls span => exact fun _ h => nomatch h
  | options values span => exact hoption
  | init values span => exact hinit
  | stmt s => exact hstmt

variable (script : Script) (images : List (String × ImageRole))

private theorem preparation_proper :
    Leads (Early (images.map (·.1))) (Early (images.map (·.1))) (preparation script images)
      fun _ b => ∀ i ∈ script.items,
        (∀ u ∈ optionUses i, Proper b u) ∧ ∀ u ∈ initUses i, Proper b u := by
  have himages := forM_leads (P := fun _ _ => True) callerImage_keeping images
    fun i hi => (callerImage_declares i (List.mem_map_of_mem hi)).leads
  have hdecls := forM_leads declarations_keeping script.items
    fun i _ => @declarations_proper (images.map (·.1)) i
  have hinits := forM_leads initialisation_keeping script.items
    fun i _ => @initialisation_proper (images.map (·.1)) i
  have hkeeping := (forM_keeping declarations_keeping script.items).bind fun _ =>
    forM_keeping initialisation_keeping script.items
  refine himages.bind (fun _ => hkeeping) fun _ => ?_
  refine hdecls.bind (fun _ => forM_keeping initialisation_keeping script.items) fun _ => ?_
  exact hinits.mono fun _ _ hinit hoption _ i hi => ⟨hoption i hi, hinit i hi⟩

private theorem stmtPlaces_sublist (items : List Item) :
    (items.flatMap stmtPlaces).Sublist (items.flatMap Item.names) := by
  induction items with
  | nil => exact .slnil
  | cons i items ih =>
    rw [List.flatMap_cons, List.flatMap_cons]
    refine List.Sublist.append ?_ ih
    cases i with
    | stmt s => exact List.Sublist.refl _
    | images | init | options => exact List.nil_sublist _

/-- In a script that is bound without an error, everything is where it may be, and every name is
noted as what it means by lexical scope. -/
theorem ofScript_proper (hordered : script.names.Pairwise Span.Precedes)
    (herrors : ∀ f ∈ (ofScript script images).2, f.what.level ≠ .error) :
    ∀ u ∈ script.uses, Proper (ofScript script images).1 u := by
  have hclean : Clean ((walk script images).run .initial).2 := herrors
  show ∀ u ∈ script.uses, Proper ((walk script images).run .initial).2.binding u
  rw [walk_eq, run_bind] at hclean ⊢
  have hlate := conclusion_keeping script ((preparation script images).run .initial).2
  obtain ⟨hearly, -, hprepared⟩ := preparation_proper script images .initial
    (hlate.clean hclean) (early_initial _)
  have hplaces := hordered.sublist (stmtPlaces_sublist script.items)
  have hconclusion : Leads
      (Before (images.map (·.1)) pixelScope [] (script.items.flatMap stmtPlaces))
      (Before (images.map (·.1)) pixelScope [] []) (conclusion script)
      fun _ b => ∀ i ∈ script.items, ∀ u ∈ stmtUses i, Proper b u :=
    (statements_proper script.items hplaces).bind
      (fun _ => Reads.keeping fun _ => finish_reads script.span.start) fun _ =>
        Reads.leads [] fun _ _ => (finish_reads _).mono fun _ _ _ _ h => h
  -- Before the first statement nothing is declared of the pixel.
  have hbefore : Before (images.map (·.1)) pixelScope [] (script.items.flatMap stmtPlaces)
      ((preparation script images).run .initial).2.binding.table :=
    ⟨⟨hearly.good, .pixel⟩, fun y hy hscope =>
      absurd ((hearly.early y hy).symm.trans hscope) (by decide)⟩
  obtain ⟨-, hext, hconcluded⟩ := hconclusion _ hclean hbefore
  refine forall_mem_flatMap fun i hi => ?_
  obtain ⟨hoption, hinit⟩ := hprepared _ (hlate.le hext) i hi
  exact proper_of_passes hoption hinit (hconcluded _ (.refl _) i hi)

end Scripts

end RasterScript.Binding
