import Mathlib.Data.List.Perm.Subperm
import RasterScript.Proofs.Binding.Bound
import RasterScript.Proofs.Script.Names

/-! What the walk through an expression does: it reports an error, or it binds the names of the
expression for good. -/
namespace RasterScript.Binding

open SymbolTable (Loops isGlobal WellFormed Extends Scoped)

variable {α β : Type}

/-- No fault so far is an error. -/
def Clean (a : Analysis) : Prop := ∀ f ∈ a.faults, f.what.level ≠ .error

/-- The places of the names and calls that were noted. -/
def Analysis.places (a : Analysis) : List Span :=
  a.binding.names.map (·.1) ++ a.binding.calls.map (·.1)

/-- What a stretch of the walk keeps; it notes names and calls at most at the given places. -/
structure Keeps (spans : List Span) (a c : Analysis) : Prop where
  faults : a.faults <+: c.faults
  names : ∀ p ∈ a.binding.names, p ∈ c.binding.names
  calls : ∀ p ∈ a.binding.calls, p ∈ c.binding.calls
  places : ∀ p, c.places.count p ≤ spans.count p + a.places.count p
  outside : a.binding.outside.isSome → c.binding.outside.isSome

section Keeps

variable {a c d : Analysis} {spans more : List Span}

theorem Keeps.clean (h : Keeps spans a c) (hc : Clean c) : Clean a :=
  fun f hf => hc f (h.faults.subset hf)

theorem Keeps.refl (a : Analysis) : Keeps [] a a where
  faults := List.prefix_refl _
  names _ := id
  calls _ := id
  places p := by simp
  outside := id

theorem Keeps.trans (h : Keeps spans a c) (k : Keeps more c d) : Keeps (spans ++ more) a d where
  faults := h.faults.trans k.faults
  names p hp := k.names p (h.names p hp)
  calls p hp := k.calls p (h.calls p hp)
  places p := by
    have := h.places p
    have := k.places p
    rw [List.count_append]
    omega
  outside ho := k.outside (h.outside ho)

theorem Keeps.weaken (h : Keeps spans a c) (hspans : spans.Subperm more) : Keeps more a c where
  faults := h.faults
  names := h.names
  calls := h.calls
  places p := Nat.le_trans (h.places p) (Nat.add_le_add_right (hspans.count_le p) _)
  outside := h.outside

theorem Keeps.le (h : Keeps spans a c) (ht : Extends a.binding.table c.binding.table) :
    Le a.binding c.binding := ⟨ht, h.names, h.calls, h.outside⟩

end Keeps

/-! ### Steps that leave the table alone -/

/-- A step that leaves the table `t` alone and notes at most the given places. If no error is
reported by its end, then its result has a property in every later binding. -/
def Reads (t : SymbolTable) (spans : List Span) (x : Walk α) (P : α → Binding → Prop) : Prop :=
  ∀ a, a.binding.table = t →
    Keeps spans a (x.run a).2 ∧ (x.run a).2.binding.table = t ∧
      (Clean (x.run a).2 → ∀ b, Le (x.run a).2.binding b → P (x.run a).1 b)

section Rules

variable {t : SymbolTable} {spans more : List Span} {x : Walk α} {f : α → Walk β}
  {P : α → Binding → Prop} {Q : β → Binding → Prop}

theorem Reads.mono {P' : α → Binding → Prop} (hx : Reads t spans x P)
    (h : ∀ v b, Extends t b.table → P v b → P' v b) : Reads t spans x P' := by
  intro a ha
  obtain ⟨hkeeps, htable, hpost⟩ := hx a ha
  exact ⟨hkeeps, htable, fun hclean b hb => h _ b (htable ▸ hb.table) (hpost hclean b hb)⟩

theorem Reads.weaken (hx : Reads t spans x P) (h : spans.Subperm more) : Reads t more x P := by
  intro a ha
  obtain ⟨hkeeps, hpost⟩ := hx a ha
  exact ⟨hkeeps.weaken h, hpost⟩

theorem Reads.pure {v : α} (h : ∀ b, Extends t b.table → P v b) :
    Reads t [] (pure v : Walk α) P :=
  fun a ha => ⟨.refl a, ha, fun _ b hb => h b (ha ▸ hb.table)⟩

theorem Reads.bind (hx : Reads t spans x P)
    (hf : ∀ v, Reads t more (f v) fun w b => P v b → Q w b) :
    Reads t (spans ++ more) (x >>= f) Q := by
  intro a ha
  obtain ⟨xkeeps, xtable, xpost⟩ := hx a ha
  obtain ⟨fkeeps, ftable, fpost⟩ := hf (x.run a).1 (x.run a).2 xtable
  have hext := Extends.refl t
  nth_rewrite 1 [← xtable] at hext
  rw [← ftable] at hext
  refine ⟨xkeeps.trans fkeeps, ftable, fun hclean b hb => fpost hclean b hb ?_⟩
  exact xpost (fkeeps.clean hclean) b ((fkeeps.le hext).trans hb)

/-- What the first step gives does not matter. -/
theorem Reads.after (hx : Reads t spans x P) (hf : ∀ v, Reads t more (f v) Q) :
    Reads t (spans ++ more) (x >>= f) Q :=
  hx.bind fun v => (hf v).mono fun _ _ _ h _ => h

/-- A step that reports an error is followed by anything. -/
theorem Reads.elim {P : α → Binding → Prop} (hx : Reads t spans x fun _ _ => False) :
    Reads t spans x P :=
  hx.mono fun _ _ _ h => h.elim

/-- The second step notes nothing. -/
theorem Reads.last (hx : Reads t spans x P)
    (hf : ∀ v, Reads t [] (f v) fun w b => P v b → Q w b) : Reads t spans (x >>= f) Q := by
  simpa using hx.bind hf

theorem Reads.symbols {f : SymbolTable → Walk β} (h : Reads t spans (f t) Q) :
    Reads t spans (symbols >>= f) Q := by
  intro a ha
  have := h a ha
  rw [← ha] at this ⊢
  exact this

end Rules

/-! ### Single steps -/

section Steps

variable {t : SymbolTable} {spans : List Span} {loops : Loops} {c : Context} {id : Ident}
  {P : Unit → Binding → Prop}

theorem Reads.ofModify {g : Analysis → Analysis}
    (h : ∀ a, a.binding.table = t → Keeps spans a (g a) ∧ (g a).binding.table = t ∧
      (Clean (g a) → ∀ b, Le (g a).binding b → P () b)) :
    Reads t spans (modify g) P := h

theorem report_reads {span : Span} {fault : Fault} (h : fault.level = .error) :
    Reads t [] (report span fault) fun _ _ => False := by
  refine Reads.ofModify fun a ha =>
    ⟨⟨List.prefix_append _ _, fun _ h => h, fun _ h => h, ?_, id⟩, ha, ?_⟩
  · intro p
    exact Nat.le_add_left _ _
  · intro hclean
    exact absurd h (hclean ⟨fault, span⟩ (List.mem_append_right _ (List.mem_singleton_self _)))

/-- A check that goes on in any case. -/
theorem Reads.unless {p : Prop} [Decidable p] {span : Span} {fault : Fault} {k : Unit → Walk β}
    {Q : β → Binding → Prop} (h : fault.level = .error)
    (hk : ∀ u, Reads t spans (k u) fun w b => ¬p → Q w b) :
    Reads t spans (if p then report span fault >>= k else k ()) Q := by
  split
  · exact (report_reads h).bind fun u => (hk u).mono fun _ _ _ _ h => h.elim
  · next hp => exact (hk ()).mono fun _ _ _ h => h hp

theorem bindName_reads (span : Span) (r : Referent) :
    Reads t [span] (bindName span r) fun _ b => (span, r) ∈ b.names := by
  refine Reads.ofModify fun a ha => ⟨⟨List.prefix_refl _, fun _ => List.mem_cons_of_mem _,
    fun _ h => h, ?_, id⟩, ha, fun _ b hb => hb.names _ List.mem_cons_self⟩
  intro p
  simp only [Analysis.places, List.map_cons, List.cons_append, List.count_cons, List.count_nil]
  omega

private theorem bindCall_reads (span : Span) (f : Builtin) :
    Reads t [span] (bindCall span f) fun _ b => (span, f) ∈ b.calls := by
  refine Reads.ofModify fun a ha => ⟨⟨List.prefix_refl _, fun _ h => h,
    fun _ => List.mem_cons_of_mem _, ?_, id⟩, ha, fun _ b hb => hb.calls _ List.mem_cons_self⟩
  intro p
  simp only [Analysis.places, List.map_cons, List.count_append, List.count_cons, List.count_nil]
  omega

theorem undefined_reads : Reads t [] (undefined id) fun _ _ => False := by
  refine Reads.symbols ?_
  split
  · exact report_reads rfl
  · exact report_reads rfl

/-- A step that changes nothing but the marks of used images. -/
theorem Reads.mark {g : Analysis → Analysis} (hb : ∀ a, (g a).binding = a.binding)
    (hf : ∀ a, (g a).faults = a.faults) : Reads t [] (modify g) fun _ _ => True := by
  refine Reads.ofModify fun a ha => ⟨⟨by simp [hf], ?_, ?_, fun p => ?_, ?_⟩, by rw [hb, ha], ?_⟩
  · exact fun _ h => by rwa [hb]
  · exact fun _ h => by rwa [hb]
  · rw [Analysis.places, hb]
    exact Nat.le_add_left _ _
  · exact fun h => by rwa [hb]
  · exact fun _ _ _ => trivial

theorem readSource_reads (s : SymbolId) :
    Reads t [] (readSource c s id) fun _ _ => c.inInit = false := by
  have hmark : Reads t [] (modify fun a => { a with read := s :: a.read } : Walk Unit)
      fun _ _ => True := .mark (fun _ => rfl) fun _ => rfl
  rw [readSource]
  split
  · exact (report_reads rfl).bind fun _ => hmark.mono fun _ _ _ _ h => h.elim
  · next h => exact hmark.mono fun _ _ _ _ => by simpa using h

theorem needScalar_reads (shape : Shape) (span : Span) :
    Reads t [] (needScalar shape span) fun _ _ => shape = .scalar := by
  cases shape with
  | scalar => exact Reads.pure fun _ _ => rfl
  | list => exact (report_reads rfl).elim

theorem checkAccess_reads (selectors : List (Selector Expr)) :
    Reads t [] (checkAccess selectors) fun _ _ => ∃ access, Access.ofSelectors selectors = .ok access := by
  rw [checkAccess]
  split
  · next access h => exact Reads.pure fun _ _ => ⟨access, h⟩
  · exact (report_reads rfl).elim

end Steps

/-! ### Names -/

/-- What the names of a scope stand for. -/
structure Sees (t : SymbolTable) (scope : ScopeId) (loops : Loops) : Prop where
  loop : ∀ {name id}, loops.lookup name = some id →
    ∃ s, t.resolve scope name = some s ∧ s.id = id ∧ s.kind = .loopVar
  global : ∀ {name s}, loops.lookup name = none → t.resolve scope name = some s →
    s ∈ t.symbols ∧ isGlobal s ∧ s.name = name ∧ s.kind ≠ .loopVar

section Names

variable {t : SymbolTable} {loops : Loops} {c : Context} {id : Ident}

variable {b : Binding} {s : Symbol} (h : Sees t c.scope loops) (hb : Extends t b.table)
  (hs : t.resolve c.scope id.name = some s) (hnoted : (id.span, .symbol s.id) ∈ b.names)

include h hb hs hnoted

theorem Sees.global_of_kind (hkind : s.kind ≠ .loopVar) : Global b loops id s := by
  cases hl : loops.lookup id.name with
  | some i =>
    obtain ⟨r, hr, -, hloop⟩ := h.loop hl
    obtain rfl := Option.some.inj (hr.symm.trans hs)
    exact absurd hloop hkind
  | none =>
    obtain ⟨hmem, hglobal, hname, -⟩ := h.global hl hs
    exact ⟨hl, hb.mem hmem, hglobal, hname, hnoted⟩

omit hb hnoted in
theorem Sees.lookup_of_loopVar (hkind : s.kind = .loopVar) : loops.lookup id.name = some s.id := by
  cases hl : loops.lookup id.name with
  | some i =>
    obtain ⟨r, hr, rfl, -⟩ := h.loop hl
    obtain rfl := Option.some.inj (hr.symm.trans hs)
    rfl
  | none => exact absurd hkind (h.global hl hs).2.2.2

omit h hb hs hnoted in
private theorem nameShape_reads (span : Span) :
    Reads t [id.span] (nameShape c id) fun shape b =>
      Sees t c.scope loops → BoundExpr b loops (.name id span) shape := by
  rw [nameShape]
  cases hconst : constant? id.name with
  | some v =>
    refine (bindName_reads _ _).bind fun _ => Reads.pure fun b _ hnoted _ => ?_
    exact .name (.constant hconst hnoted)
  | none =>
    refine Reads.symbols ?_
    cases hs : t.resolve c.scope id.name with
    | none =>
      refine Reads.weaken ?_ (List.nil_sublist _).subperm
      exact undefined_reads.last fun _ => Reads.pure fun _ _ h => h.elim
    | some s =>
      refine (bindName_reads _ _).last fun _ => ?_
      cases hkind : s.kind with
      | sourceImage =>
        refine (readSource_reads _).after fun _ => Reads.pure fun b hb hnoted h => ?_
        exact .name (.source hconst (h.global_of_kind hb hs hnoted (by simp [hkind])) hkind)
      | destImage => exact (report_reads rfl).last fun _ => Reads.pure fun _ _ h => h.elim
      | list =>
        refine Reads.pure fun b hb hnoted h => ?_
        exact .name (.mk hconst (h.global_of_kind hb hs hnoted (by simp [hkind])) hkind)
      | scalar =>
        refine Reads.pure fun b hb hnoted h => ?_
        exact .name (.scalar hconst (h.global_of_kind hb hs hnoted (by simp [hkind])) hkind)
      | loopVar =>
        refine Reads.pure fun b hb hnoted h => ?_
        exact .name (.loop hconst (h.lookup_of_loopVar hs hkind) hnoted)

omit h hb hs hnoted in
private theorem imageName_reads (loops : Loops) :
    Reads t [id.span] (imageName c id) fun _ b => Sees t c.scope loops →
      ∃ s, Global b loops id s ∧ s.kind = .sourceImage := by
  refine Reads.symbols ?_
  cases hs : t.resolve c.scope id.name with
  | none => exact undefined_reads.elim.weaken (List.nil_sublist _).subperm
  | some s =>
    refine (bindName_reads _ _).last fun _ => ?_
    split
    · next hkind =>
      refine (readSource_reads _).mono fun _ b hb _ hnoted h => ?_
      exact ⟨s, h.global_of_kind hb hs hnoted (by simp [hkind]), hkind⟩
    · exact (report_reads rfl).elim
    · exact (report_reads rfl).elim

omit h hb hs hnoted in
theorem callee_reads (count : Nat) :
    Reads t [id.span] (callee c id count) fun g b => ∃ f, g = some f ∧
      Builtin.ofName? id.name = some f ∧ (id.span, f) ∈ b.calls ∧ f.accepts count ∧
        ∀ p, f = .position p → c.inInit = true → p.isPixel = false := by
  rw [callee]
  cases hf : Builtin.ofName? id.name with
  | none =>
    refine Reads.weaken ?_ (List.nil_sublist _).subperm
    exact (report_reads rfl).last fun _ => Reads.pure fun _ _ h => h.elim
  | some f =>
    refine (bindCall_reads _ _).last fun _ => ?_
    split
    · next p =>
      refine Reads.unless rfl fun _ => Reads.unless rfl fun _ => ?_
      refine Reads.pure fun b _ hpixel hcount hnoted => ⟨_, rfl, rfl, hnoted, by simpa using hcount, ?_⟩
      rintro _ ⟨⟩ hinit
      simpa [hinit] using hpixel
    · next hother =>
      refine Reads.unless rfl fun _ => Reads.pure fun b _ hcount hnoted => ?_
      exact ⟨f, rfl, rfl, hnoted, by simpa using hcount, fun p hp => absurd hp (hother p)⟩

end Names

/-! ### Expressions -/

section Expressions

variable {t : SymbolTable} {loops : Loops} {c : Context}

theorem Reads.scalar {spans : List Span} {e : Expr}
    (he : Reads t spans (expr c e) fun shape b => Sees t c.scope loops → BoundExpr b loops e shape) :
    Reads t spans (scalar c e) fun _ b => Sees t c.scope loops → BoundScalar b loops e := by
  refine he.last fun shape => (needScalar_reads shape e.span).mono ?_
  rintro - b - rfl hbound hsees
  exact hbound hsees

mutual

/-- The names of an expression are bound as its shape says. -/
theorem expr_reads : ∀ e, Reads t e.names (expr c e) fun shape b =>
    Sees t c.scope loops → BoundExpr b loops e shape
  | .number _ _ => Reads.pure fun _ _ _ => .number
  | .name id span => nameShape_reads span
  | .call f args span => by
    refine (callee_reads args.length).bind fun g => (arguments_reads g args).last fun _ => ?_
    refine Reads.pure fun b _ hargs hcallee hsees => ?_
    obtain ⟨f', rfl, hname, hnoted, hcount, -⟩ := hcallee
    exact .call hname hnoted hcount (hargs f' rfl hsees)
  | .image id selectors span => by
    refine (imageName_reads loops).bind fun _ => (checkAccess_reads selectors).bind fun _ =>
      (groups_reads selectors).last fun _ => Reads.pure fun b _ hgroups haccess himage hsees => ?_
    obtain ⟨s, hglobal, hkind⟩ := himage hsees
    obtain ⟨access, haccess⟩ := haccess
    exact .image hglobal hkind haccess (hgroups hsees)
  | .list items span => (listItems_reads items).last fun _ => Reads.pure fun _ _ hitems hsees =>
      .literal (hitems hsees)
  | .unary op a span => (expr_reads a).scalar.last fun _ => Reads.pure fun _ _ ha hsees =>
      .unary (ha hsees)
  | .binary op l r span => by
    show Reads t (l.names ++ r.names) (do scalar c l; scalar c r; return Shape.scalar) _
    refine (expr_reads l).scalar.bind fun _ => (expr_reads r).scalar.last fun _ => ?_
    exact Reads.pure fun _ _ hr hl hsees => .binary (hl hsees) (hr hsees)
  | .cond e y n span => by
    show Reads t _ (do scalar c e; scalar c y; scalar c n; return Shape.scalar) _
    refine (expr_reads e).scalar.bind fun _ => (expr_reads y).scalar.bind fun _ =>
      (expr_reads n).scalar.last fun _ => ?_
    exact Reads.pure fun _ _ hn hy ht hsees => .cond (ht hsees) (hy hsees) (hn hsees)

private theorem arguments_reads (g : Option Builtin) :
    ∀ es, Reads t (exprsNames es) (arguments c g es)
    fun _ b => ∀ f, g = some f → Sees t c.scope loops → BoundArguments b loops f.takesLists es
  | [] => Reads.pure fun _ _ _ _ _ => .nil
  | e :: es => by
    refine (expr_reads e).bind fun shape => ?_
    cases g with
    | none => exact (arguments_reads none es).mono fun _ _ _ _ _ _ h => nomatch h
    | some f =>
      refine Reads.unless rfl fun _ => (arguments_reads (some f) es).mono ?_
      rintro - b - hes hlist he f' ⟨⟩ hsees
      cases shape with
      | scalar => exact .one (he hsees) (hes f rfl hsees)
      | list =>
        have hes := hes f rfl hsees
        have hlists : f.takesLists = true := by simpa using hlist
        rw [hlists] at hes ⊢
        exact .many (he hsees) hes

private theorem listItems_reads : ∀ es, Reads t (exprsNames es) (listItems c es) fun _ b =>
    Sees t c.scope loops → BoundScalars b loops es
  | [] => Reads.pure fun _ _ _ => .nil
  | e :: es => by
    refine (expr_reads e).bind fun shape => Reads.unless rfl fun _ => (listItems_reads es).mono ?_
    intro _ b _ hes hscalar he hsees
    cases shape with
    | scalar => exact .cons (he hsees) (hes hsees)
    | list => exact absurd rfl hscalar

private theorem groups_reads : ∀ ss, Reads t (groupsNames ss) (groups c ss) fun _ b =>
    Sees t c.scope loops → BoundGroups b loops ss
  | [] => Reads.pure fun _ _ _ => .nil
  | s :: ss => (group_reads s).bind fun _ => (groups_reads ss).mono fun _ _ _ hss hs hsees =>
      .cons (hs hsees) (hss hsees)

private theorem group_reads : ∀ s, Reads t (groupNames s) (group c s) fun _ b =>
    Sees t c.scope loops → BoundCoords b loops s.coords
  | ⟨cs, _⟩ => coords_reads cs

private theorem coords_reads : ∀ cs, Reads t (coordsNames cs) (coords c cs) fun _ b =>
    Sees t c.scope loops → BoundCoords b loops cs
  | [] => Reads.pure fun _ _ _ => .nil
  | x :: xs => (coord_reads x).bind fun _ => (coords_reads xs).mono fun _ _ _ hxs hx hsees =>
      .cons (hx hsees) (hxs hsees)

private theorem coord_reads : ∀ x, Reads t (coordNames x) (coord c x) fun _ b =>
    Sees t c.scope loops → BoundScalar b loops x.value
  | ⟨_, value, _⟩ => (expr_reads value).scalar

end

end Expressions

end RasterScript.Binding
