import RasterScript.Proofs.Binding.Scripts
import RasterScript.Proofs.Script.Images

/-! The images that the walk through a script marks as used are those that the script uses by name.
So all that a walk without an error reports is which images the script does not use. -/
namespace RasterScript

namespace SymbolTable

variable {t : SymbolTable} {s y : Symbol} {role : ImageRole}

/-- An image and a symbol outside the loops are the same if their names are. -/
theorem WellFormed.eq_of_image (h : WellFormed t) (hs : s ∈ t.symbols) (hglobal : isGlobal s)
    (hy : y ∈ t.symbols) (hkind : y.kind = Binding.imageKind role) (hname : y.name = s.name) :
    y = s := by
  refine h.apart y hy s hs ?_ hglobal hname
  simp [isGlobal, h.scope_of_image hy hkind, imageScope]

end SymbolTable

namespace Binding

open SymbolTable (Loops isGlobal WellFormed Extends Scoped imageScope pixelScope)

variable {α β : Type}

private theorem isImage_imageKind (role : ImageRole) :
    (imageKind role).isImage := by cases role <;> rfl

/-! ### Marks -/

/-- The symbols that are marked as used in a role. -/
def Analysis.marked (a : Analysis) : ImageRole → List SymbolId
  | .source => a.read
  | .destination => a.assigned

/-- What a stretch of the walk does without an error: it reports nothing, and it marks the images
of the given names and roles. -/
structure Tally (us : List (ImageRole × String)) (a c : Analysis) : Prop where
  table : Extends a.binding.table c.binding.table
  faults : c.faults = a.faults
  marks : ∀ t, WellFormed t → Extends c.binding.table t → ∀ y ∈ t.symbols, ∀ role,
    y.kind = imageKind role →
      (y.id ∈ c.marked role ↔ y.id ∈ a.marked role ∨ (role, y.name) ∈ us)

section Tally

variable {a c d : Analysis} {us vs : List (ImageRole × String)} {s : Symbol} {role : ImageRole}

theorem Tally.trans (h : Tally us a c) (k : Tally vs c d) : Tally (us ++ vs) a d where
  table := h.table.trans k.table
  faults := k.faults.trans h.faults
  marks := by
    intro t ht hext y hy role hkind
    rw [k.marks t ht hext y hy role hkind, h.marks t ht (k.table.trans hext) y hy role hkind,
      List.mem_append, or_assoc]

/-- Nothing is marked if the names belong to variables. -/
theorem Tally.ofVariables (htable : Extends a.binding.table c.binding.table)
    (hfaults : c.faults = a.faults) (hmarked : c.marked = a.marked)
    (hus : ∀ u ∈ us, ∃ s ∈ c.binding.table.symbols, isGlobal s ∧ s.name = u.2 ∧ ¬s.kind.isImage) :
    Tally us a c where
  table := htable
  faults := hfaults
  marks := by
    intro t ht hext y hy role hkind
    rw [hmarked]
    refine ⟨.inl, ?_⟩
    rintro (h | h)
    · exact h
    · obtain ⟨s, hs, hglobal, hname, hvariable⟩ := hus _ h
      obtain rfl := ht.eq_of_image (hext.mem hs) hglobal hy hkind hname.symm
      exact absurd (hkind ▸ isImage_imageKind role) hvariable

theorem Tally.nothing (htable : Extends a.binding.table c.binding.table)
    (hfaults : c.faults = a.faults) (hmarked : c.marked = a.marked) : Tally [] a c :=
  .ofVariables htable hfaults hmarked (List.forall_mem_nil _)

/-- An image is marked. -/
theorem Tally.ofMark (hs : s ∈ a.binding.table.symbols) (hglobal : isGlobal s)
    (hbinding : c.binding = a.binding) (hfaults : c.faults = a.faults)
    (hmarked : ∀ other, c.marked other =
      if other = role then s.id :: a.marked other else a.marked other) :
    Tally [(role, s.name)] a c where
  table := hbinding ▸ .refl _
  faults := hfaults
  marks := by
    intro t ht hext y hy other hother
    rw [hbinding] at hext
    have hiff : y.id = s.id ↔ y.name = s.name := by
      constructor
      · intro hid
        rw [ht.eq_of_id hy (hext.mem hs) hid]
      · intro hname
        rw [ht.eq_of_image (hext.mem hs) hglobal hy hother hname]
    rw [hmarked other, List.mem_singleton, Prod.mk.injEq]
    split
    · next heq =>
      rw [List.mem_cons, hiff, or_comm]
      simp [heq]
    · next hne => simp [hne]

end Tally

/-! ### Steps that leave the table alone -/

/-- A step that leaves the table `t` alone and marks images, if it reports no error. -/
def Counts (t : SymbolTable) (x : Walk α) (us : List (ImageRole × String)) : Prop :=
  ∀ a, a.binding.table = t →
    (x.run a).2.binding.table = t ∧ a.faults <+: (x.run a).2.faults ∧
      (Clean (x.run a).2 → Tally us a (x.run a).2)

section Counts

variable {t : SymbolTable} {x : Walk α} {f : α → Walk β} {us vs : List (ImageRole × String)}
  {c : Context} {id : Ident} {loops : Loops}

theorem Counts.pure (v : α) : Counts t (pure v : Walk α) [] :=
  fun _ ha => ⟨ha, List.prefix_refl _, fun _ => .nothing (.refl _) rfl rfl⟩

theorem Counts.bind (hx : Counts t x us) (hf : ∀ v, Counts t (f v) vs) :
    Counts t (x >>= f) (us ++ vs) := by
  intro a ha
  obtain ⟨xtable, xfaults, xtally⟩ := hx a ha
  obtain ⟨ftable, ffaults, ftally⟩ := hf (x.run a).1 (x.run a).2 xtable
  refine ⟨ftable, xfaults.trans ffaults, fun hclean => ?_⟩
  have hmid : Clean (x.run a).2 := fun f hf => hclean f (ffaults.subset hf)
  exact (xtally hmid).trans (ftally hclean)

/-- The second step marks nothing. -/
theorem Counts.last (hx : Counts t x us) (hf : ∀ v, Counts t (f v) []) :
    Counts t (x >>= f) us := by
  simpa using hx.bind hf

/-- The first step marks nothing. -/
theorem Counts.after (hx : Counts t x []) (hf : ∀ v, Counts t (f v) us) :
    Counts t (x >>= f) us :=
  hx.bind hf

theorem Counts.symbols {f : SymbolTable → Walk β} (h : Counts t (f t) us) :
    Counts t (symbols >>= f) us := by
  intro a ha
  have := h a ha
  rw [← ha] at this ⊢
  exact this

private theorem report_counts {span : Span} {fault : Fault} (h : fault.level = .error)
    (us : List (ImageRole × String)) : Counts t (report span fault) us :=
  fun a ha => ⟨ha, List.prefix_append _ _, fun hclean => absurd hclean (report_not_clean h a)⟩

theorem Counts.unless {p : Prop} [Decidable p] {span : Span} {fault : Fault} {k : Unit → Walk β}
    (h : fault.level = .error) (hk : ∀ u, Counts t (k u) us) :
    Counts t (if p then report span fault >>= k else k ()) us := by
  split
  · exact (report_counts h []).after hk
  · exact hk ()

private theorem bindName_counts (span : Span) (r : Referent) : Counts t (bindName span r) [] :=
  fun _ ha => ⟨ha, List.prefix_refl _, fun _ => .nothing (.refl _) rfl rfl⟩

private theorem bindCall_counts (span : Span) (f : Builtin) : Counts t (bindCall span f) [] :=
  fun _ ha => ⟨ha, List.prefix_refl _, fun _ => .nothing (.refl _) rfl rfl⟩

private theorem undefined_counts (us : List (ImageRole × String)) : Counts t (undefined id) us := by
  refine Counts.symbols ?_
  split
  · exact report_counts rfl us
  · exact report_counts rfl us

private theorem needScalar_counts (shape : Shape) (span : Span) :
    Counts t (needScalar shape span) [] := by
  cases shape with
  | scalar => exact .pure ()
  | list => exact report_counts rfl []

private theorem checkAccess_counts (selectors : List (Selector Expr)) :
    Counts t (checkAccess selectors) [] := by
  rw [checkAccess]
  split
  · exact .pure ()
  · exact report_counts rfl []

private theorem readSource_counts {s : Symbol} (hs : s ∈ t.symbols) (hglobal : isGlobal s) :
    Counts t (readSource c s.id id) [(.source, s.name)] := by
  refine Counts.unless rfl fun _ a ha => ⟨ha, List.prefix_refl _, fun _ => ?_⟩
  refine Tally.ofMark (ha ▸ hs) hglobal rfl rfl fun other => ?_
  cases other <;> rfl

private theorem callee_counts (count : Nat) : Counts t (callee c id count) [] := by
  rw [callee]
  split
  · exact (report_counts rfl []).last fun _ => .pure _
  · next f _ =>
    refine (bindCall_counts _ _).after fun _ => ?_
    split
    · exact Counts.unless rfl fun _ => Counts.unless rfl fun _ => .pure _
    · exact Counts.unless rfl fun _ => .pure _

/-- A name that belongs to a variable marks nothing. -/
theorem Counts.variable {s : Symbol} (hs : s ∈ t.symbols) (hglobal : isGlobal s)
    (hkind : ¬s.kind.isImage) (role : ImageRole) (v : α) :
    Counts t (Pure.pure v : Walk α) [(role, s.name)] := by
  intro a ha
  refine ⟨ha, List.prefix_refl _, fun _ => .ofVariables (.refl _) rfl rfl ?_⟩
  exact List.forall_mem_singleton.mpr ⟨s, ha ▸ hs, hglobal, rfl, hkind⟩

/-! ### Names -/

/-- A name that is found outside the loops. -/
theorem Sees.global_of_ne {s : Symbol} (h : Sees t c.scope loops)
    (hs : t.resolve c.scope id.name = some s) (hkind : s.kind ≠ .loopVar) :
    id.name ∉ loops.map (·.1) ∧ s ∈ t.symbols ∧ isGlobal s ∧ s.name = id.name := by
  have hnone : loops.lookup id.name = none := by
    rw [Option.eq_none_iff_forall_ne_some]
    intro i hi
    obtain ⟨r, hr, -, hloop⟩ := h.loop hi
    obtain rfl := Option.some.inj (hr.symm.trans hs)
    exact hkind hloop
  obtain ⟨hmem, hglobal, hname, -⟩ := h.global hnone hs
  exact ⟨lookup_eq_none_iff.mp hnone, hmem, hglobal, hname⟩

private theorem nameShape_counts (h : Sees t c.scope loops) (span : Span) :
    Counts t (nameShape c id) ((Expr.name id span).images (loops.map (·.1))) := by
  rw [nameShape, Expr.images]
  cases hconst : constant? id.name with
  | some v =>
    rw [if_pos (.inl rfl)]
    exact (bindName_counts _ _).last fun _ => .pure _
  | none =>
    refine Counts.symbols ?_
    cases hs : t.resolve c.scope id.name with
    | none => exact (undefined_counts _).last fun _ => .pure _
    | some s =>
      refine (bindName_counts _ _).after fun _ => ?_
      by_cases hloop : s.kind = .loopVar
      · have hhidden : id.name ∈ loops.map (·.1) := by
          have hlookup := h.lookup_of_loopVar hs hloop
          exact List.mem_map.mpr ⟨_, mem_of_lookup_loops hlookup, rfl⟩
        rw [if_pos (.inr hhidden), hloop]
        exact .pure _
      · obtain ⟨hfree, hmem, hglobal, hname⟩ := h.global_of_ne hs hloop
        rw [if_neg (by simpa using hfree), ← hname]
        cases hkind : s.kind with
        | sourceImage => exact (readSource_counts hmem hglobal).last fun _ => .pure _
        | destImage => exact (report_counts rfl _).last fun _ => .pure _
        | list => exact .variable hmem hglobal (by simp [hkind, SymbolKind.isImage]) _ _
        | scalar => exact .variable hmem hglobal (by simp [hkind, SymbolKind.isImage]) _ _
        | loopVar => exact absurd hkind hloop

private theorem imageName_counts (h : Sees t c.scope loops) :
    Counts t (imageName c id) [(.source, id.name)] := by
  refine Counts.symbols ?_
  cases hs : t.resolve c.scope id.name with
  | none => exact undefined_counts _
  | some s =>
    refine (bindName_counts _ _).after fun _ => ?_
    split
    · next hkind =>
      obtain ⟨-, hmem, hglobal, hname⟩ := h.global_of_ne hs (by simp [hkind])
      rw [← hname]
      exact readSource_counts hmem hglobal
    · exact report_counts rfl _
    · exact report_counts rfl _

end Counts

/-! ### Expressions -/

section Expressions

variable {t : SymbolTable} {loops : Loops} {c : Context}

theorem Counts.scalar {us : List (ImageRole × String)} {e : Expr} (he : Counts t (expr c e) us) :
    Counts t (Binding.scalar c e) us :=
  he.last fun shape => needScalar_counts shape e.span

/-- A call of a position function has no arguments, or it is an error. -/
theorem args_eq_nil {f : Ident} {args : List Expr} {span : Span} {b : Binding}
    (h : BoundExpr b loops (.call f args span) .scalar) (hf : isPositionCall f) : args = [] := by
  cases h with
  | @call _ _ _ g hname _ hcount =>
    rw [isPositionCall, hname] at hf
    cases g with
    | position p =>
      refine List.length_eq_zero_iff.mp ?_
      simpa [Builtin.accepts, Builtin.arity] using hcount
    | _ => cases hf

mutual

/-- The walk through an expression marks the images that it uses. -/
theorem expr_counts (h : Sees t c.scope loops) : ∀ e : Expr,
    Counts t (expr c e) (e.images (loops.map (·.1)))
  | .number _ _ => .pure _
  | .name id span => nameShape_counts h span
  | .call f args span => by
    have hall : Counts t (expr c (.call f args span)) (exprsImages (loops.map (·.1)) args) :=
      (callee_counts _).after fun g => (arguments_counts h g args).last fun _ => .pure _
    rw [Expr.images]
    split
    · next hf =>
      intro a ha
      obtain ⟨htable, hfaults, htally⟩ := hall a ha
      refine ⟨htable, hfaults, fun hclean => ?_⟩
      have hbound := (@expr_reads t loops c (.call f args span) a ha).2.2 hclean _ (.refl _) h
      obtain rfl := args_eq_nil hbound hf
      exact htally hclean
    · exact hall
  | .image id selectors span =>
    (imageName_counts h).bind fun _ => (checkAccess_counts selectors).after fun _ =>
      (groups_counts h selectors).last fun _ => .pure _
  | .list items span => (listItems_counts h items).last fun _ => .pure _
  | .unary op a span => (expr_counts h a).scalar.last fun _ => .pure _
  | .binary op l r span => by
    show Counts t (do scalar c l; scalar c r; return Shape.scalar) _
    exact (expr_counts h l).scalar.bind fun _ => (expr_counts h r).scalar.last fun _ => .pure _
  | .cond e y n span => by
    show Counts t (do scalar c e; scalar c y; scalar c n; return Shape.scalar) _
    exact (expr_counts h e).scalar.bind fun _ => (expr_counts h y).scalar.bind fun _ =>
      (expr_counts h n).scalar.last fun _ => .pure _

private theorem arguments_counts (h : Sees t c.scope loops) (g : Option Builtin) : ∀ es : List Expr,
    Counts t (arguments c g es) (exprsImages (loops.map (·.1)) es)
  | [] => .pure _
  | e :: es => by
    refine (expr_counts h e).bind fun shape => ?_
    cases g with
    | none => exact arguments_counts h none es
    | some f => exact Counts.unless rfl fun _ => arguments_counts h (some f) es

private theorem listItems_counts (h : Sees t c.scope loops) : ∀ es : List Expr,
    Counts t (listItems c es) (exprsImages (loops.map (·.1)) es)
  | [] => .pure _
  | e :: es => (expr_counts h e).bind fun _ => Counts.unless rfl fun _ => listItems_counts h es

private theorem groups_counts (h : Sees t c.scope loops) : ∀ ss : List (Selector Expr),
    Counts t (groups c ss) (groupsImages (loops.map (·.1)) ss)
  | [] => .pure _
  | s :: ss => (group_counts h s).bind fun _ => groups_counts h ss

private theorem group_counts (h : Sees t c.scope loops) : ∀ s : Selector Expr,
    Counts t (group c s) (groupImages (loops.map (·.1)) s)
  | ⟨cs, _⟩ => coords_counts h cs

private theorem coords_counts (h : Sees t c.scope loops) : ∀ cs : List (Coord Expr),
    Counts t (coords c cs) (coordsImages (loops.map (·.1)) cs)
  | [] => .pure _
  | x :: xs => (coord_counts h x).bind fun _ => coords_counts h xs

private theorem coord_counts (h : Sees t c.scope loops) : ∀ x : Coord Expr,
    Counts t (coord c x) (coordImages (loops.map (·.1)) x)
  | ⟨_, value, _⟩ => (expr_counts h value).scalar

end

end Expressions

/-! ### Steps that declare names -/

/-- A step that marks images, if it reports no error. -/
def Tallies (I : SymbolTable → Prop) (x : Walk α) (us : List (ImageRole × String)) : Prop :=
  ∀ a, Clean (x.run a).2 → I a.binding.table → Tally us a (x.run a).2

section Rules

open Direct (Declared)

variable {I : SymbolTable → Prop} {x : Walk α} {f : α → Walk β} {us vs : List (ImageRole × String)}
  {d : Declared → Declared} {P : α → Binding → Prop} {spans : List Span}

theorem Counts.tallies (h : ∀ t, I t → Counts t x us) : Tallies I x us :=
  fun a hclean hI => (h _ hI a rfl).2.2 hclean

theorem Tallies.bind (hx : Tallies I x us) (hd : Declares I x d P) (hk : ∀ v, Keeping spans (f v))
    (hf : ∀ v, Tallies I (f v) vs) : Tallies I (x >>= f) (us ++ vs) := by
  intro a hclean hI
  have hmid := (hk (x.run a).1 (x.run a).2).clean hclean
  exact (hx a hmid hI).trans (hf _ _ hclean (hd a hmid hI).inv)

theorem Tallies.pure (v : α) : Tallies I (pure v : Walk α) [] :=
  Counts.tallies fun _ _ => .pure v

private theorem report_tallies {span : Span} {fault : Fault} (h : fault.level = .error)
    (us : List (ImageRole × String)) : Tallies I (report span fault) us :=
  Counts.tallies fun _ _ => report_counts h us

end Rules

/-! ### Statements -/

section Statements

variable {given : List String} {t : SymbolTable} {c : Context} {loops : Loops} {target : Ident}
  {op : AssignOp} {shape : Shape} {span : Span}

/-- A second declaration marks nothing. -/
theorem declare_counts {scope : ScopeId} {name : String} {kind : SymbolKind} {s : Symbol}
    (wf : WellFormed t) (h : t.lookup scope name = some s) :
    Counts t (declare scope name kind span) [] := by
  intro a ha
  have hreads : Reads t [] (declare scope name kind span) _ := declare_reads wf h
  obtain ⟨hkeeps, htable, hpost⟩ := hreads a ha
  refine ⟨htable, hkeeps.faults, fun hclean => ?_⟩
  obtain ⟨-, hkind⟩ := hpost hclean _ (.refl _)
  rw [declare_run, ha, wf.declare_old h, if_pos hkind]
  exact .nothing (ha ▸ .refl _) (List.append_nil _) rfl

private theorem assignTo_counts {s : Symbol} (h : Inside given c.scope loops t)
    (hs : t.resolve c.scope target.name = some s) :
    Counts t (assignTo c target op shape span s) [(.destination, target.name)] := by
  by_cases hloop : s.kind = .loopVar
  · rw [assignTo, hloop]
    exact report_counts rfl _
  · obtain ⟨-, hmem, hglobal, hname⟩ := h.sees.global_of_ne hs hloop
    rw [assignTo, ← hname]
    split
    · exact report_counts rfl _
    · next hkind => exact absurd hkind hloop
    · refine Counts.last (fun a ha => ⟨ha, List.prefix_refl _, fun _ => ?_⟩) fun _ => ?_
      · refine Tally.ofMark (ha ▸ hmem) hglobal rfl rfl fun other => ?_
        cases other <;> rfl
      · split
        · exact report_counts rfl _
        · split
          · exact report_counts rfl _
          · exact Counts.unless rfl fun _ => .pure _
    · next hsource _ hdest =>
      have hvariable : ¬s.kind.isImage := by
        cases hkind : s.kind with
        | sourceImage => exact absurd hkind hsource
        | destImage => exact absurd hkind hdest
        | _ => simp [SymbolKind.isImage]
      split
      · exact report_counts rfl _
      · refine (declare_counts h.good.wf (h.good.wf.lookup_eq hmem)).after fun _ => ?_
        exact .variable hmem hglobal hvariable _ _

private theorem assignValue_tallies :
    Tallies (Inside given c.scope loops) (assignValue c target op shape span)
      [(.destination, target.name)] := by
  intro a hclean h
  by_cases hconst : (constant? target.name).isSome
  · rw [assignValue, if_pos hconst] at hclean
    exact absurd hclean (report_not_clean rfl a)
  · rw [assignValue, if_neg hconst, symbols_bind_run] at hclean ⊢
    cases hs : a.binding.table.resolve c.scope target.name with
    | none =>
      rw [hs] at hclean
      by_cases hop : op = .set
      · subst hop
        obtain ⟨-, hnew⟩ := h.not_found hs
        have hlookup := (Option.or_eq_none_iff.mp hnew).1
        show Tally _ a ((do
          let id ← declare pixelScope target.name shape.kind target.span
          bindName target.span (.symbol id) : Walk Unit).run a).2
        rw [run_bind, declare_new_run h.good.wf.toInStep hlookup]
        -- The name belongs to the variable that is new.
        refine .ofVariables (SymbolTable.extends_withSymbol (by decide)) rfl rfl ?_
        refine List.forall_mem_singleton.mpr ⟨_, List.mem_append_right _ (List.mem_singleton_self _),
          rfl, rfl, ?_⟩
        cases shape <;> simp [Shape.kind, SymbolKind.isImage]
      · simp only [hop, ne_eq, not_false_eq_true, if_true] at hclean
        exact absurd hclean (report_not_clean rfl a)
    | some s =>
      rw [hs] at hclean
      exact ((bindName_counts _ _).after fun _ => assignTo_counts h hs) a rfl |>.2.2 hclean

private theorem expr_tallies (e : Expr) :
    Tallies (Inside given c.scope loops) (expr c e) (e.images (loops.map (·.1))) :=
  Counts.tallies fun _ h => expr_counts h.sees e

private theorem scalar_tallies (e : Expr) :
    Tallies (Inside given c.scope loops) (scalar c e) (e.images (loops.map (·.1))) :=
  Counts.tallies fun _ h => (expr_counts h.sees e).scalar

private theorem source_tallies : ∀ s : Source,
    Tallies (Inside given c.scope loops) (source c s) (s.images (loops.map (·.1)))
  | .list items => Counts.tallies fun _ h => (expr_counts h.sees items).last fun _ =>
      Counts.unless rfl fun _ => .pure _
  | .range low high =>
    (scalar_tallies low).bind (scalar_declares low) (fun _ => scalar_keeping high) fun _ =>
      scalar_tallies high

private theorem loop_tallies (var : Ident) (body : Stmt)
    (hbody : ∀ scope id, Tallies (Inside given scope ((var.name, id) :: loops))
      (stmt { c with scope := scope, inLoop := true } body)
      (body.images (var.name :: loops.map (·.1)))) :
    Tallies (Inside given c.scope loops)
      (do
        let scope ← openLoop c.scope var
        stmt { c with scope := scope, inLoop := true } body)
      (body.images (var.name :: loops.map (·.1))) := by
  intro a hclean h
  rw [run_bind, openLoop_run h.good.wf] at hclean ⊢
  have hopen : Tally [] a
      { a with
        binding.table := a.binding.table.withLoop c.scope var.name var.span
        binding.names := (var.span, .symbol a.binding.table.symbols.length) :: a.binding.names } :=
    .nothing (SymbolTable.extends_withLoop c.scope) rfl rfl
  exact hopen.trans (hbody _ _ _ hclean (h.withLoop var))

mutual

/-- The walk through a statement marks the images that it uses. -/
theorem stmt_tallies : ∀ (s : Stmt) (c : Context) (loops : Loops),
    Tallies (Inside given c.scope loops) (stmt c s) (s.images (loops.map (·.1)))
  | .assign target op value span, c, loops => by
    have hvalue : Declares (Inside given c.scope loops) (expr c value) (fun D => D)
        fun _ _ => True := Reads.declares _ fun t _ => (@expr_reads t loops c value).mono
          fun _ _ _ _ => trivial
    exact (expr_tallies value).bind hvalue (fun _ => assignValue_keeping _ _ _ _) fun _ =>
      assignValue_tallies
  | .cond test yes no span, c, loops =>
    (scalar_tallies test).bind (scalar_declares test)
      (fun _ => (stmt_keeping yes c).bind fun _ => other_keeping no c) fun _ =>
        (stmt_tallies yes c loops).bind (stmt_declares yes c loops) (fun _ => other_keeping no c)
          fun _ => other_tallies no c loops
  | .loop kind test body span, c, loops =>
    (scalar_tallies test).bind (scalar_declares test) (fun _ => stmt_keeping body _) fun _ =>
      stmt_tallies body { c with inLoop := true } loops
  | .foreach var source body span, c, loops => by
    rw [stmt_foreach]
    exact (source_tallies source).bind (source_declares source)
      (fun _ => (openLoop_keeping _ _).bind fun _ => stmt_keeping body _) fun _ =>
        loop_tallies var body fun scope id => stmt_tallies body _ _
  | .block body span, c, loops => stmts_tallies body c loops
  | .breakIf test span, c, loops =>
    Counts.tallies fun _ h => Counts.unless rfl fun _ => (expr_counts h.sees test).scalar
  | .leave span, c, loops => by
    rw [stmt]
    split
    · exact .pure _
    · exact report_tallies rfl _

private theorem other_tallies : ∀ (s : Option Stmt) (c : Context) (loops : Loops),
    Tallies (Inside given c.scope loops) (other c s) (elseImages (loops.map (·.1)) s)
  | none, _, _ => .pure _
  | some s, c, loops => stmt_tallies s c loops

private theorem stmts_tallies : ∀ (ss : List Stmt) (c : Context) (loops : Loops),
    Tallies (Inside given c.scope loops) (stmts c ss) (stmtsImages (loops.map (·.1)) ss)
  | [], _, _ => .pure _
  | s :: ss, c, loops => (stmt_tallies s c loops).bind (stmt_declares s c loops)
      (fun _ => stmts_keeping ss c) fun _ => stmts_tallies ss c loops

end

end Statements

/-! ### Items -/

section Items

open Direct (Declared)

variable {given : List String} {I : SymbolTable → Prop}

private theorem forM_tallies {f : α → Walk Unit} {us : α → List (ImageRole × String)}
    {spans : α → List Span} {d : Declared → α → Declared} {P : α → Binding → Prop}
    (hk : ∀ x, Keeping (spans x) (f x)) (xs : List α)
    (hd : ∀ x ∈ xs, Declares I (f x) (d · x) fun _ => P x) (ht : ∀ x ∈ xs, Tallies I (f x) (us x)) :
    Tallies I (xs.forM f) (xs.flatMap us) := by
  induction xs with
  | nil => exact .pure _
  | cons x xs ih =>
    rw [List.flatMap_cons]
    refine (ht x List.mem_cons_self).bind (hd x List.mem_cons_self)
      (fun _ => forM_keeping hk xs) fun _ => ?_
    exact ih (fun y hy => hd y (List.mem_cons_of_mem x hy)) fun y hy => ht y (List.mem_cons_of_mem x hy)

/-- A declaration in the image scope marks nothing. -/
theorem declare_tallies (name : String) (kind : SymbolKind) (span : Span) :
    Tallies (Early given) (declare imageScope name kind span) [] := by
  intro a hclean h
  cases hs : a.binding.table.lookup imageScope name with
  | none =>
    rw [declare_new_run h.good.wf.toInStep hs]
    exact .nothing (SymbolTable.extends_withSymbol (by decide)) rfl rfl
  | some s => exact (declare_counts h.good.wf hs a rfl).2.2 hclean

private theorem bindName_tallies (span : Span) (r : Referent) : Tallies I (bindName span r) [] :=
  Counts.tallies fun _ _ => bindName_counts span r

private theorem callerImage_tallies (i : String × ImageRole) (hgiven : i.1 ∈ given) :
    Tallies (Early given) (callerImage i) [] :=
  (declare_tallies _ _ _).bind (declare_image i.1 i.2 (.point 0) fun _ => hgiven)
    (fun _ => .pure ()) fun _ => .pure _

private theorem imageDecl_tallies (d : ImageDecl) : Tallies (Early given) (imageDecl d) [] := by
  rw [imageDecl]
  split
  · exact report_tallies rfl _
  · next hconst =>
    exact (declare_tallies _ _ _).bind
      (declare_image d.ident.name d.role d.ident.span fun h => absurd h hconst)
      (fun _ => Reads.keeping fun _ => bindName_reads _ _) fun _ => bindName_tallies _ _

private theorem option_tallies (v : NamedValue) : Tallies I (option v) [] := by
  rw [option]
  split
  · exact report_tallies rfl _
  · split
    · exact fun _ _ _ => .nothing (.refl _) rfl rfl
    · exact report_tallies rfl _

private theorem initTarget_tallies (id : Ident) : Tallies (Early given) (initTarget id) [] := by
  rw [initTarget]
  split
  · exact report_tallies rfl _
  · next hconst =>
    exact (declare_tallies _ _ _).bind (declare_declares rfl fun h => absurd h hconst)
      (fun _ => Reads.keeping fun _ => bindName_reads _ _) fun _ => bindName_tallies _ _

private theorem initValue_tallies (v : NamedValue) :
    Tallies (Early given) (initValue v) (v.value.images []) := by
  have hvalue : Tallies (Early given) (scalar .init v.value) (v.value.images []) :=
    Counts.tallies fun _ h => (@expr_counts _ [] _ h.sees v.value).scalar
  have hdeclares : Declares (Early given) (scalar .init v.value) (fun D => D) fun _ _ => True :=
    Reads.declares _ fun t _ => (@expr_reads t [] .init v.value).scalar.mono fun _ _ _ _ => trivial
  have htarget := hvalue.bind hdeclares (fun _ => initTarget_keeping v.ident) fun _ =>
    initTarget_tallies v.ident
  rwa [List.append_nil] at htarget

private theorem declarations_tallies (i : Item) : Tallies (Early given) (declarations i) [] := by
  cases i with
  | images decls span =>
    have hdecls := forM_tallies imageDecl_keeping decls (fun d _ => imageDecl_declares d)
      fun d _ => @imageDecl_tallies given d
    rwa [List.flatMap_eq_nil_iff.mpr fun _ _ => rfl] at hdecls
  | options values span =>
    have hvalues := forM_tallies (I := Early given) (d := fun D _ => D)
      (fun v => Reads.keeping fun _ => option_reads v) values
      (fun v _ => Reads.declares [] fun _ _ => option_reads v) fun v _ => option_tallies v
    rwa [List.flatMap_eq_nil_iff.mpr fun _ _ => rfl] at hvalues
  | init values span => exact .pure _
  | stmt s => exact .pure _

private theorem initialisation_tallies (i : Item) :
    Tallies (Early given) (initialisation i) i.initImages := by
  cases i with
  | init values span =>
    exact forM_tallies initValue_keeping values (fun v _ => initValue_declares v)
      fun v _ => initValue_tallies v
  | _ => exact .pure _

private theorem statement_tallies (i : Item) :
    Tallies (Inside given pixelScope []) (statement i) i.stmtImages := by
  cases i with
  | stmt s => exact stmt_tallies s .pixel []
  | _ => exact .pure _

end Items

/-! ### Scripts -/

section Scripts

variable (script : Script) (images : List (String × ImageRole))

private theorem preparation_tallies :
    Tallies (Early (images.map (·.1))) (preparation script images)
      (script.items.flatMap Item.initImages) := by
  have himages := forM_tallies (d := Direct.Declared.image) (P := fun _ _ => True)
    callerImage_keeping images (fun i hi => callerImage_declares i (List.mem_map_of_mem hi))
    fun i hi => callerImage_tallies i (List.mem_map_of_mem hi)
  have hdecls := forM_tallies declarations_keeping script.items
    (fun i _ => @declarations_declares (images.map (·.1)) i) fun i _ => declarations_tallies i
  have hinits := forM_tallies initialisation_keeping script.items
    (fun i _ => @initialisation_declares (images.map (·.1)) i) fun i _ => initialisation_tallies i
  rw [List.flatMap_eq_nil_iff.mpr fun _ _ => rfl] at himages hdecls
  have hkeeping := (forM_keeping declarations_keeping script.items).bind fun _ =>
    forM_keeping initialisation_keeping script.items
  exact himages.bind (forM_declares callerImage_keeping images fun i hi =>
      callerImage_declares i (List.mem_map_of_mem hi)) (fun _ => hkeeping) fun _ =>
    hdecls.bind (forM_declares declarations_keeping script.items fun i _ => declarations_declares i)
      (fun _ => forM_keeping initialisation_keeping script.items) fun _ => hinits

/-- The warning for an image that is not used as what it is. -/
def warning? (used : ImageRole → Symbol → Bool) (s : Symbol) : Option (Located Fault) :=
  match s.kind with
  | .destImage => if used .destination s then none else some ⟨.neverAssigned s.name, s.span⟩
  | .sourceImage => if used .source s then none else some ⟨.neverRead s.name, s.span⟩
  | _ => none

theorem warning?_congr {used used' : ImageRole → Symbol → Bool} {s : Symbol}
    (h : ∀ role, s.kind = imageKind role → used role s = used' role s) :
    warning? used s = warning? used' s := by
  rw [warning?, warning?]
  cases hkind : s.kind with
  | destImage => simp only [h .destination hkind]
  | sourceImage => simp only [h .source hkind]
  | _ => rfl

private theorem unused?_eq {us : List (ImageRole × String)} {a : Analysis} (h : Tally us .initial a)
    (wf : WellFormed a.binding.table) {s : Symbol} (hs : s ∈ a.binding.table.symbols) :
    unused? a s = warning? (fun role s => us.contains (role, s.name)) s := by
  show warning? (fun role s => (a.marked role).contains s.id) s = _
  refine warning?_congr fun role hkind => ?_
  rw [Bool.eq_iff_iff, List.contains_iff_mem, List.contains_iff_mem,
    h.marks _ wf (.refl _) s hs role hkind]
  refine ⟨fun hor => hor.resolve_left ?_, .inr⟩
  cases role <;> exact List.not_mem_nil

private theorem finish_run {start : Nat} {a : Analysis} (hclean : Clean ((finish start).run a).2) :
    ((finish start).run a).2 =
      { a with faults := a.faults ++ a.binding.table.symbols.filterMap (unused? a) } := by
  rw [finish, symbols_bind_run] at hclean ⊢
  split at hclean
  · have hreported : Clean ((report (.point start) .noDestination).run a).2 :=
      fun f hf => hclean f (List.mem_append_left _ hf)
    exact absurd hreported (report_not_clean rfl a)
  · next hsome =>
    rw [if_neg hsome]
    rfl

/-- A walk without an error reports the images that the script does not use, in the order of their
declarations, and nothing else. -/
theorem ofScript_warnings (herrors : ∀ f ∈ (ofScript script images).2, f.what.level ≠ .error) :
    (ofScript script images).2 = (ofScript script images).1.table.symbols.filterMap
      (warning? fun role s => script.images.contains (role, s.name)) := by
  have hclean : Clean ((walk script images).run .initial).2 := herrors
  show ((walk script images).run .initial).2.faults =
    ((walk script images).run .initial).2.binding.table.symbols.filterMap _
  rw [walk_eq, run_bind] at hclean ⊢
  have hlate := conclusion_keeping script ((preparation script images).run .initial).2
  have hprepared := preparation_declares script images .initial (hlate.clean hclean)
    (early_initial _)
  have hfirst := preparation_tallies script images .initial (hlate.clean hclean) (early_initial _)
  generalize ((preparation script images).run .initial).2 = a at hclean hprepared hfirst ⊢
  rw [conclusion, run_bind] at hclean ⊢
  have hmid : Clean ((script.items.forM statement).run a).2 :=
    (Reads.keeping (fun _ => finish_reads _) _).clean hclean
  have hinside : Inside (images.map (·.1)) pixelScope [] a.binding.table := ⟨hprepared.inv.good, .pixel⟩
  have hstatements := forM_declares statement_keeping script.items
    (fun i _ => @statement_declares (images.map (·.1)) i) a hmid hinside
  have hsecond := forM_tallies statement_keeping script.items
    (fun i _ => @statement_declares (images.map (·.1)) i) (fun i _ => statement_tallies i) a hmid
    hinside
  generalize ((script.items.forM statement).run a).2 = c at hclean hstatements hsecond ⊢
  have htally := hfirst.trans hsecond
  rw [finish_run hclean]
  show c.faults ++ _ = c.binding.table.symbols.filterMap _
  rw [htally.faults]
  exact List.filterMap_congr fun s hs => unused?_eq htally hstatements.inv.good.wf hs

end Scripts

end Binding

end RasterScript
