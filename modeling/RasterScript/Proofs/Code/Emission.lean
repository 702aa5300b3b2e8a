import RasterScript.Proofs.Code.Slots

/-! Lowering a script whose names are bound: it reports no fault, and it gives code that fits the
slots it gives out. -/
namespace RasterScript.Code

namespace Lower

open Binding (Bound Global ScalarName ListName BoundScalar BoundList BoundArguments BoundScalars
  BoundGroups BoundCoords BoundExpr BoundSource BoundStmt BoundElse BoundStmts BoundInit BoundItem
  referent?_eq builtinAt?_eq symbolAt?_eq)
open SymbolTable (Loops isGlobal WellFormed imageScope pixelScope)

variable {α β : Type} {b : Binding} {loops : Loops} {ls : LoopSlots}

/-! ### Steps -/

/-- The loop variables around a place have their slots. -/
def LoopsAt (s : Slots) : Loops → LoopSlots → Prop :=
  List.Forall₂ fun l p => l.1 = p.1 ∧ s.scalars.lookup l.2 = some (.pixel p.2)

theorem LoopsAt.extend {s t : Slots} (h : LoopsAt s loops ls) (hle : s.Le t) :
    LoopsAt t loops ls :=
  List.Forall₂.imp (fun _ _ hp => ⟨hp.1, hle.scalars hp.2⟩) h

/-- A step that reports no fault and only gives out new slots; its result has a property for all
later slots. -/
def Emits (b : Binding) (loops : Loops) (ls : LoopSlots) (x : Lower α) (P : α → Slots → Prop) :
    Prop :=
  ∀ s : Slots, s.Ok b → LoopsAt s loops ls →
    (x.run s).2.faults = s.faults ∧ s.Le (x.run s).2 ∧ (x.run s).2.Ok b ∧
      ∀ S, (x.run s).2.Le S → S.Ok b → LoopsAt S loops ls → P (x.run s).1 S

section Rules

variable {x : Lower α} {f : α → Lower β} {P : α → Slots → Prop} {Q : β → Slots → Prop}

theorem Emits.mono {P' : α → Slots → Prop} (hx : Emits b loops ls x P)
    (h : ∀ v S, S.Ok b → LoopsAt S loops ls → P v S → P' v S) : Emits b loops ls x P' := by
  intro s hok hls
  obtain ⟨hfaults, hle, hok', hpost⟩ := hx s hok hls
  exact ⟨hfaults, hle, hok', fun S hS hokS hlsS => h _ S hokS hlsS (hpost S hS hokS hlsS)⟩

theorem Emits.pure {v : α} (h : ∀ S, S.Ok b → LoopsAt S loops ls → P v S) :
    Emits b loops ls (pure v : Lower α) P :=
  fun s hok _ => ⟨rfl, .refl s, hok, fun S _ => h S⟩

theorem Emits.bind (hx : Emits b loops ls x P)
    (hf : ∀ v, Emits b loops ls (f v) fun w S => P v S → Q w S) :
    Emits b loops ls (x >>= f) Q := by
  intro s hok hls
  obtain ⟨xfaults, xle, xok, xpost⟩ := hx s hok hls
  obtain ⟨ffaults, fle, fok, fpost⟩ := hf (x.run s).1 (x.run s).2 xok (hls.extend xle)
  refine ⟨ffaults.trans xfaults, xle.trans fle, fok, fun S hS hokS hlsS => ?_⟩
  exact fpost S hS hokS hlsS (xpost S (fle.trans hS) hokS hlsS)

/-- What can be done outside a loop can be done inside it. -/
theorem Emits.inside {l : String × SymbolId} {p : String × Nat} (hx : Emits b loops ls x P) :
    Emits b (l :: loops) (p :: ls) x P := by
  intro s hok hls
  obtain ⟨hfaults, hle, hok', hpost⟩ := hx s hok (List.forall₂_cons.mp hls).2
  exact ⟨hfaults, hle, hok', fun S hS hokS hlsS => hpost S hS hokS (List.forall₂_cons.mp hlsS).2⟩

/-- A step that gives a loop variable its slot, and a step inside the loop. -/
theorem Emits.bindLoop {x : Lower (Option Slot)} {f : Option Slot → Lower β} {n : String}
    {id : SymbolId}
    (hx : Emits b loops ls x fun r S =>
      ∃ i, r = some (.pixel i) ∧ S.scalars.lookup id = some (.pixel i))
    (hf : ∀ i, Emits b ((n, id) :: loops) ((n, i) :: ls) (f (some (.pixel i))) Q) :
    Emits b loops ls (x >>= f) Q := by
  intro s hok hls
  obtain ⟨xfaults, xle, xok, xpost⟩ := hx s hok hls
  obtain ⟨i, hi, hl⟩ := xpost _ (.refl _) xok (hls.extend xle)
  obtain ⟨ffaults, fle, fok, fpost⟩ := hf i (x.run s).2 xok (.cons ⟨rfl, hl⟩ (hls.extend xle))
  have hrun : (x >>= f).run s = (f (some (.pixel i))).run (x.run s).2 := by
    rw [← hi]
    rfl
  rw [hrun]
  refine ⟨ffaults.trans xfaults, xle.trans fle, fok, fun S hS hokS hlsS => ?_⟩
  exact fpost S hS hokS (.cons ⟨rfl, (fle.trans hS).scalars hl⟩ hlsS)

end Rules

/-! ### Entries -/

section Entries

variable {script : Script} {images : List (String × ImageRole)} (h : Bound script images b)
  {id : Ident} {s : Symbol}

include h

private theorem symbolOf_eq {span : Span} {i : SymbolId} {name : String}
    (hi : (span, .symbol i) ∈ b.names) (hs : b.table.symbol? i = some s) :
    symbolOf b span name = pure (some s) := by
  rw [symbolOf, symbolAt?_eq h hi, Option.bind_some, hs]

end Entries

/-! ### Slots -/

section Slots

variable {script : Script} {images : List (String × ImageRole)} (h : Bound script images b)
  {s : Symbol}

private theorem inImageScope_eq (wf : WellFormed b.table) (hs : s ∈ b.table.symbols)
    (hkind : s.kind = .scalar) :
    (inImageScope b s = true ∧ s.scope = imageScope) ∨
      (inImageScope b s = false ∧ s.scope = pixelScope) := by
  have hholds := wf.kinds s hs
  have himage := wf.image
  have hpixel := wf.pixel
  rw [hkind] at hholds
  rw [inImageScope, SymbolTable.scope?]
  generalize s.scope = n at hholds
  obtain _ | _ | n := n
  · rw [show b.table.scopes[0]? = _ from himage]
    exact .inl ⟨rfl, rfl⟩
  · rw [show b.table.scopes[0 + 1]? = _ from hpixel]
    exact .inr ⟨rfl, rfl⟩
  · cases hholds

private theorem get_bind_run (f : Slots → Lower α) (st : Slots) :
    (get >>= f).run st = (f st).run st := rfl

/-- What a lowering does with the slot of a scalar. -/
theorem slot_run {span : Span} {name : String} {st : Slots}
    (hsymbol : symbolOf b span name = pure (some s)) (wf : WellFormed b.table)
    (hs : s ∈ b.table.symbols) (hkind : s.kind = .scalar ∨ s.kind = .loopVar) :
    (scalarSlot b span name).run st =
      match st.scalars.lookup s.id with
      | some slot => (some slot, st)
      | none =>
        if s.kind = .scalar ∧ s.scope = imageScope then
          (some (.image st.imageNames.length), st.withImage s)
        else (some (.pixel st.pixelNames.length), st.withPixel s) := by
  rw [scalarSlot, hsymbol, pure_bind]
  dsimp only
  rw [get_bind_run]
  cases hl : st.scalars.lookup s.id with
  | some slot => rfl
  | none =>
    rcases hkind with hkind | hkind
    · rcases inImageScope_eq wf hs hkind with ⟨hin, hscope⟩ | ⟨hin, hscope⟩
      · simp only [hkind, hin, hscope, and_self, if_true]
        rfl
      · simp only [hkind, hin, hscope, show pixelScope ≠ imageScope by decide, and_false, if_false]
        rfl
    · simp only [hkind, reduceCtorEq, false_and, if_false]
      rfl

include h

private theorem scalarSlot_emits {span : Span} {name : String} {i : SymbolId}
    (hi : (span, .symbol i) ∈ b.names) (hs : b.table.symbol? i = some s)
    (hkind : s.kind = .scalar ∨ s.kind = .loopVar) :
    Emits b loops ls (scalarSlot b span name) fun r S =>
      ∃ slot, r = some slot ∧ S.scalars.lookup i = some slot ∧ SlotOf S s slot := by
  intro st hok hls
  have wf := h.good.wf
  have hmem : s ∈ b.table.symbols := List.mem_of_getElem? hs
  obtain rfl : s.id = i := wf.ids hs
  have hpost {t : Slots} {slot : Slot} (hl : t.scalars.lookup s.id = some slot) (S : Slots)
      (hS : t.Le S) (hokS : S.Ok b) (_ : LoopsAt S loops ls) :
      ∃ slot', some slot = some slot' ∧ S.scalars.lookup s.id = some slot' ∧ SlotOf S s slot' := by
    obtain ⟨r, hr, hslot⟩ := hokS.scalars (hS.scalars hl)
    rw [hs] at hr
    exact ⟨slot, rfl, hS.scalars hl, Option.some.inj hr ▸ hslot⟩
  rw [slot_run (symbolOf_eq h hi hs) wf hmem hkind]
  cases hl : st.scalars.lookup s.id with
  | some slot => exact ⟨rfl, .refl st, hok, hpost hl⟩
  | none =>
    dsimp only
    split
    · next hscalar =>
      refine ⟨rfl, Slots.le_withImage hl, hok.withImage wf hmem hscalar.1 hscalar.2 hl, hpost ?_⟩
      simp [Slots.withImage]
    · next hscalar =>
      have hpixel : s.kind = .scalar ∧ s.scope = pixelScope ∨ s.kind = .loopVar := by
        refine hkind.imp_left fun hkind => ⟨hkind, ?_⟩
        rcases inImageScope_eq wf hmem hkind with ⟨-, hscope⟩ | ⟨-, hscope⟩
        · exact absurd ⟨hkind, hscope⟩ hscalar
        · exact hscope
      refine ⟨rfl, Slots.le_withPixel hl, hok.withPixel wf hmem hpixel hl, hpost ?_⟩
      simp [Slots.withPixel]

private theorem listSlot_emits (hs : s ∈ b.table.symbols) (hkind : s.kind = .list) :
    Emits b loops ls (listSlot s) fun i S => S.listNames[i]? = some s.name := by
  intro st hok hls
  have wf := h.good.wf
  have hpost {t : Slots} {i : Nat} (hl : t.lists.lookup s.id = some i) (S : Slots)
      (hS : t.Le S) (hokS : S.Ok b) (_ : LoopsAt S loops ls) : S.listNames[i]? = some s.name := by
    obtain ⟨r, hr, -, hname⟩ := hokS.lists (hS.lists hl)
    rw [wf.symbol?_id hs] at hr
    rw [hname, Option.some.inj hr]
  rw [listSlot, get_bind_run]
  cases hl : st.lists.lookup s.id with
  | some i => exact ⟨rfl, .refl st, hok, hpost hl⟩
  | none =>
    refine ⟨rfl, Slots.le_withList hl, hok.withList wf hs hkind hl, hpost ?_⟩
    exact List.lookup_cons_self

end Slots

/-! ### Names -/

section Names

variable {script : Script} {images : List (String × ImageRole)} (h : Bound script images b)
  {id : Ident} {s : Symbol}

theorem LoopsAt.lookup {st : Slots} (hls : LoopsAt st loops ls) (name : String) :
    match loops.lookup name with
    | none => ls.lookup name = none
    | some i => ∃ slot, ls.lookup name = some slot ∧ st.scalars.lookup i = some (.pixel slot) := by
  induction hls with
  | nil => rfl
  | @cons l p loops ls hp _ ih =>
    rw [List.lookup_cons, List.lookup_cons, ← hp.1]
    by_cases hname : name == l.1
    · rw [hname]
      exact ⟨p.2, rfl, hp.2⟩
    · rw [Bool.not_eq_true] at hname
      rw [hname]
      exact ih

theorem LoopsAt.free {st : Slots} (hls : LoopsAt st loops ls) {name : String}
    (hfree : loops.lookup name = none) : ls.lookup name = none := by
  have := hls.lookup name
  rwa [hfree] at this

theorem LoopsAt.slot {st : Slots} (hls : LoopsAt st loops ls) {name : String} {i : SymbolId}
    (hi : loops.lookup name = some i) :
    ∃ slot, ls.lookup name = some slot ∧ st.scalars.lookup i = some (.pixel slot) := by
  have := hls.lookup name
  rwa [hi] at this

include h

/-- The slot of a variable that a name stands for. -/
theorem load_emits {span : Span} {i : SymbolId} (hi : (id.span, .symbol i) ∈ b.names)
    (hs : b.table.symbol? i = some s) (hkind : s.kind = .scalar ∨ s.kind = .loopVar)
    (hcoded : ∀ S slot, LoopsAt S loops ls → S.scalars.lookup i = some slot → SlotOf S s slot →
      Coded b.table.declared (S.layout b) ls (.name id span) (.load slot)) :
    Emits b loops ls (name b id) fun c S =>
      Coded b.table.declared (S.layout b) ls (.name id span) c := by
  have hmem : s ∈ b.table.symbols := List.mem_of_getElem? hs
  have hnone : imageIndex? b .sourceImage i = none := by
    rw [← h.good.wf.ids hs]
    refine Slots.imageIndex?_eq_none h.good.wf hmem ?_
    rcases hkind with hkind | hkind <;> simp [hkind]
  rw [name, referent?_eq h hi]
  dsimp only
  rw [hnone]
  refine (scalarSlot_emits h hi hs hkind).bind fun r => ?_
  cases r with
  | none => exact Emits.pure fun S _ _ ⟨_, hnone, _⟩ => nomatch hnone
  | some slot =>
    refine Emits.pure fun S _ hls hslot => ?_
    obtain ⟨_, ⟨⟩, hl, hslot⟩ := hslot
    exact hcoded S slot hls hl hslot

private theorem name_emits {span : Span} (hname : ScalarName b loops id) :
    Emits b loops ls (name b id) fun c S =>
      Coded b.table.declared (S.layout b) ls (.name id span) c := by
  have wf := h.good.wf
  cases hname with
  | constant hv hnoted =>
    rw [name, referent?_eq h hnoted]
    exact Emits.pure fun _ _ _ => .constant hv
  | @loop i hplain hi hnoted =>
    intro st hok hls
    -- The loop variable got its slot before the body was lowered.
    obtain ⟨slot, -, hslot⟩ := hls.slot hi
    obtain ⟨y, hy, hof⟩ := hok.scalars hslot
    have hkind : y.kind = .scalar ∨ y.kind = .loopVar := by
      cases hof with
      | pixel hkind => exact .inl hkind
      | loop hkind => exact .inr hkind
    refine load_emits h hnoted hy hkind (fun S slot hls hl _ => ?_) st hok hls
    obtain ⟨k, hk, hkslot⟩ := hls.slot hi
    obtain rfl := Option.some.inj (hkslot.symm.trans hl)
    exact .loop hplain hk
  | scalar hplain hs hkind =>
    refine load_emits h hs.noted (wf.symbol?_id hs.mem) (.inl hkind) fun S slot hls hl hof => ?_
    have hvariable := Slots.variableAt wf hs.mem hkind hof hl
    rw [hs.name] at hvariable
    exact .load hplain (hls.free hs.free) hvariable
  | @source s hplain hs hkind =>
    obtain ⟨i, hi, hat⟩ := Slots.imageAt wf .source hs.mem hkind
    have hindex : imageIndex? b .sourceImage s.id = some i := hi
    rw [name, referent?_eq h hs.noted]
    dsimp only
    rw [hindex]
    rw [hs.name] at hat
    exact Emits.pure fun S _ hls => .source hplain (hls.free hs.free) hat

private theorem listSymbol?_eq {span : Span} (hs : Global b loops id s) (hkind : s.kind = .list) :
    listSymbol? b (.name id span) = some s := by
  rw [listSymbol?, symbolAt?_eq h hs.noted, Option.bind_some, h.good.wf.symbol?_id hs.mem]
  simp [hkind]

private theorem listName_emits {span : Span} (hname : ListName b loops id) :
    ∃ s, listSymbol? b (.name id span) = some s ∧
      Emits b loops ls (listSlot s) fun i S =>
        CodedItems b.table.declared (S.layout b) ls (.name id span) (.slot i) := by
  obtain ⟨hplain, hs, hkind⟩ := hname
  refine ⟨_, listSymbol?_eq h hs hkind, (listSlot_emits h hs.mem hkind).mono ?_⟩
  intro i S _ hls hi
  have hat := Slots.listAt h.good.wf hs.mem hs.global hkind hi
  rw [hs.name] at hat
  exact .slot hplain (hls.free hs.free) hat

private theorem listSymbol?_eq_none {st : Slots} (hok : st.Ok b) (hls : LoopsAt st loops ls)
    {e : RasterScript.Expr} (he : BoundScalar b loops e) : listSymbol? b e = none := by
  cases he with
  | name hname =>
    rw [listSymbol?]
    cases hname with
    | constant _ hnoted => rw [Binding.symbolAt?, referent?_eq h hnoted]; rfl
    | loop _ hi hnoted =>
      obtain ⟨slot, -, hslot⟩ := hls.slot hi
      obtain ⟨y, hy, hof⟩ := hok.scalars hslot
      rw [symbolAt?_eq h hnoted, Option.bind_some, hy]
      cases hof with
      | pixel hkind | loop hkind => simp [hkind]
    | scalar _ hs hkind | source _ hs hkind =>
      rw [symbolAt?_eq h hs.noted, Option.bind_some, h.good.wf.symbol?_id hs.mem]
      simp [hkind]
  | _ => rfl

end Names

/-! ### Expressions -/

section Expressions

private theorem coords_eq_map (cs : List (Coord RasterScript.Expr)) :
    coords b cs = cs.map (Coord.map (expr b)) := by
  induction cs with
  | nil => rw [coords]; rfl
  | cons c cs ih =>
    rw [coords, ih]
    obtain ⟨relative, value, span⟩ := c
    rw [coord]
    rfl

private theorem groups_eq_map (ss : List (Selector RasterScript.Expr)) :
    groups b ss = ss.map (Selector.map (expr b)) := by
  induction ss with
  | nil => rw [groups]; rfl
  | cons s ss ih =>
    rw [groups, ih]
    obtain ⟨cs, span⟩ := s
    rw [group, coords_eq_map]
    rfl

/-- An expression is lowered to its code. -/
abbrev EmitsCode (b : Binding) (loops : Loops) (ls : LoopSlots) (e : RasterScript.Expr) : Prop :=
  Emits b loops ls (expr b e) fun c S => Coded b.table.declared (S.layout b) ls e c

private theorem band_emits {o : Option RasterScript.Expr}
    (ho : ∀ e, o = some e → EmitsCode b loops ls e) :
    Emits b loops ls ((o.map (expr b)).mapM fun e => e) fun c S =>
      CodedBand b.table.declared (S.layout b) ls o c := by
  cases o with
  | none => exact Emits.pure fun _ _ _ => .none
  | some e => exact (ho e rfl).bind fun c => Emits.pure fun _ _ _ he => .some he

private theorem point_emits {o : Option (Coord RasterScript.Expr × Coord RasterScript.Expr)}
    (ho : ∀ x y, o = some (x, y) → EmitsCode b loops ls x.value ∧ EmitsCode b loops ls y.value) :
    Emits b loops ls ((o.map fun (x, y) => (x.map (expr b), y.map (expr b))).mapM fun (x, y) => do
      let px ← x.value
      let py ← y.value
      return (⟨⟨x.relative, px⟩, ⟨y.relative, py⟩⟩ : Point Expr)) fun c S =>
        CodedPoint b.table.declared (S.layout b) ls o c := by
  cases o with
  | none => exact Emits.pure fun _ _ _ => .none
  | some p =>
    obtain ⟨x, y⟩ := p
    obtain ⟨hx, hy⟩ := ho x y rfl
    have hpoint : Emits b loops ls (do
        let px ← expr b x.value
        let py ← expr b y.value
        return (⟨⟨x.relative, px⟩, ⟨y.relative, py⟩⟩ : Point Expr)) fun p S =>
          CodedPoint b.table.declared (S.layout b) ls (some (x, y)) (some p) :=
      hx.bind fun _ => hy.bind fun _ => Emits.pure fun _ _ _ hd hc => .some hc hd
    exact hpoint.bind fun _ => Emits.pure fun _ _ _ hp => hp

variable {script : Script} {images : List (String × ImageRole)} {id : Ident} {s : Symbol}

private theorem imageRead_emits (h : Bound script images b) {span : Span}
    {selectors : List (Selector RasterScript.Expr)} {access : Access RasterScript.Expr}
    (hs : Global b loops id s) (hkind : s.kind = .sourceImage)
    (haccess : Access.ofSelectors selectors = .ok access)
    (hvalues : ∀ e ∈ Selector.values selectors, EmitsCode b loops ls e) :
    EmitsCode b loops ls (.image id selectors span) := by
  obtain ⟨i, hi, hat⟩ := Slots.imageAt h.good.wf .source hs.mem hkind
  have hindex : (b.symbolAt? id.span).bind (imageIndex? b .sourceImage) = some i := by
    rw [symbolAt?_eq h hs.noted]
    exact hi
  have hmap : Access.ofSelectors (groups b selectors) = .ok (access.map (expr b)) := by
    rw [groups_eq_map, Access.ofSelectors_map, haccess]
    rfl
  obtain ⟨hband, hpoint⟩ := Access.mem_values haccess
  rw [hs.name] at hat
  rw [EmitsCode, expr, imageRead, hindex]
  dsimp only
  rw [hmap]
  refine (band_emits fun e he => hvalues e (hband e he)).bind fun _ => ?_
  refine (point_emits fun x y hxy => ?_).bind fun _ => ?_
  · exact ⟨hvalues _ (hpoint x y hxy).1, hvalues _ (hpoint x y hxy).2⟩
  · exact Emits.pure fun S _ hls hp hb => .image (hls.free hs.free) hat haccess hb hp

private theorem argument_emits (h : Bound script images b) {e : RasterScript.Expr}
    (he : BoundScalar b loops e) (hcode : EmitsCode b loops ls e) :
    Emits b loops ls (argument b e) fun c S =>
      ∃ d, c = .one d ∧ Coded b.table.declared (S.layout b) ls e d := by
  intro st hok hls
  have hnone := listSymbol?_eq_none h hok hls he
  have heq : argument b e = (do return .one (← expr b e)) := by
    cases he <;> simp only [argument, hnone]
  have hone : Emits b loops ls (do return Argument.one (← expr b e)) fun c S =>
      ∃ d, c = .one d ∧ Coded b.table.declared (S.layout b) ls e d :=
    hcode.bind fun d => Emits.pure fun _ _ _ hd => ⟨d, rfl, hd⟩
  rw [heq]
  exact hone st hok hls

private theorem literal_emits {items : List RasterScript.Expr} {span : Span}
    (hitems : Emits b loops ls (exprs b items) fun cs S =>
      CodedAll b.table.declared (S.layout b) ls items cs) :
    Emits b loops ls (argument b (.list items span)) fun c S =>
      ∃ d, c = .many d ∧ CodedItems b.table.declared (S.layout b) ls (.list items span) d := by
  rw [argument]
  exact hitems.bind fun cs => Emits.pure fun _ _ _ hcs => ⟨.literal cs, rfl, .literal hcs⟩

private theorem listArgument_emits (h : Bound script images b) {span : Span}
    (hname : ListName b loops id) :
    Emits b loops ls (argument b (.name id span)) fun c S =>
      ∃ d, c = .many d ∧ CodedItems b.table.declared (S.layout b) ls (.name id span) d := by
  obtain ⟨s, hs, hemits⟩ := @listName_emits b loops ls script images h id span hname
  simp only [argument, hs]
  exact hemits.bind fun i => Emits.pure fun _ _ _ hi => ⟨.slot i, rfl, hi⟩

mutual

theorem scalar_emits (h : Bound script images b) :
    ∀ {e}, BoundScalar b loops e → EmitsCode b loops ls e
  | _, .number => by
    rw [EmitsCode, expr]
    exact Emits.pure fun _ _ _ => .number
  | _, .name hname => by
    rw [EmitsCode, expr]
    exact name_emits h hname
  | _, @BoundScalar.call _ _ f args span g hname hnoted _ hargs => by
    rw [EmitsCode, expr, builtinAt?_eq h hnoted]
    cases g with
    | position p => exact Emits.pure fun _ _ _ => .position hname
    | scalar g =>
      exact (flat_emits h hargs).bind fun _ => Emits.pure fun _ _ _ hargs => .call hname hargs
    | statistic g =>
      exact (arguments_emits h hargs).bind fun _ =>
        Emits.pure fun _ _ _ hargs => .statistic hname hargs
  | _, .image hs hkind haccess hgroups =>
    imageRead_emits h hs hkind haccess (groups_emits h hgroups)
  | _, .unary ha => by
    rw [EmitsCode, expr]
    exact (scalar_emits h ha).bind fun _ => Emits.pure fun _ _ _ hc => .unary hc
  | _, .binary hl hr => by
    rw [EmitsCode, expr]
    exact (scalar_emits h hl).bind fun _ => (scalar_emits h hr).bind fun _ =>
      Emits.pure fun _ _ _ hd hc => .binary hc hd
  | _, .cond ht hy hn => by
    rw [EmitsCode, expr]
    exact (scalar_emits h ht).bind fun _ => (scalar_emits h hy).bind fun _ =>
      (scalar_emits h hn).bind fun _ => Emits.pure fun _ _ _ he hd hc => .cond hc hd he

private theorem arguments_emits (h : Bound script images b) :
    ∀ {lists es}, BoundArguments b loops lists es →
      Emits b loops ls (arguments b es) fun cs S =>
        CodedArguments b.table.declared (S.layout b) ls es cs
  | _, _, .nil => by
    rw [arguments]
    exact Emits.pure fun _ _ _ => .nil
  | _, _, .one he hes => by
    rw [arguments]
    refine (argument_emits h he (scalar_emits h he)).bind fun _ =>
      (arguments_emits h hes).bind fun _ => Emits.pure fun S _ _ hes he => ?_
    obtain ⟨d, rfl, he⟩ := he
    exact .one he hes
  | _, _, .many (.literal hitems) hes => by
    rw [arguments]
    refine (literal_emits (scalars_emits h hitems)).bind fun _ =>
      (arguments_emits h hes).bind fun _ => Emits.pure fun S _ _ hes he => ?_
    obtain ⟨d, rfl, he⟩ := he
    exact .many he hes
  | _, _, .many (.name hname) hes => by
    rw [arguments]
    refine (listArgument_emits h hname).bind fun _ => (arguments_emits h hes).bind fun _ =>
      Emits.pure fun S _ _ hes he => ?_
    obtain ⟨d, rfl, he⟩ := he
    exact .many he hes

private theorem flat_emits (h : Bound script images b) : ∀ {es}, BoundArguments b loops false es →
    Emits b loops ls (exprs b es) fun cs S => CodedAll b.table.declared (S.layout b) ls es cs
  | _, .nil => by
    rw [exprs]
    exact Emits.pure fun _ _ _ => .nil
  | _, .one he hes => by
    rw [exprs]
    exact (scalar_emits h he).bind fun _ => (flat_emits h hes).bind fun _ =>
      Emits.pure fun _ _ _ hcs hc => .cons hc hcs

private theorem scalars_emits (h : Bound script images b) : ∀ {es}, BoundScalars b loops es →
    Emits b loops ls (exprs b es) fun cs S => CodedAll b.table.declared (S.layout b) ls es cs
  | _, .nil => by
    rw [exprs]
    exact Emits.pure fun _ _ _ => .nil
  | _, .cons he hes => by
    rw [exprs]
    exact (scalar_emits h he).bind fun _ => (scalars_emits h hes).bind fun _ =>
      Emits.pure fun _ _ _ hcs hc => .cons hc hcs

private theorem groups_emits (h : Bound script images b) : ∀ {ss}, BoundGroups b loops ss →
    ∀ e ∈ Selector.values ss, EmitsCode b loops ls e
  | _, .nil => nofun
  | _, .cons hs hss => fun e he => by
    rw [Selector.values, List.flatMap_cons, List.mem_append] at he
    exact he.elim (coords_emits h hs e) (groups_emits h hss e)

private theorem coords_emits (h : Bound script images b) :
    ∀ {cs : List (Coord RasterScript.Expr)}, BoundCoords b loops cs →
      ∀ e ∈ cs.map (·.value), EmitsCode b loops ls e
  | _, .nil => nofun
  | _, .cons hc hcs => fun e he => by
    rcases List.mem_cons.mp he with rfl | he
    · exact scalar_emits h hc
    · exact coords_emits h hcs e he

end

theorem list_emits (h : Bound script images b) {e : RasterScript.Expr} (he : BoundList b loops e) :
    Emits b loops ls (list b e) fun c S =>
      CodedItems b.table.declared (S.layout b) ls e c := by
  cases he with
  | literal hitems =>
    exact (scalars_emits h hitems).bind fun _ => Emits.pure fun _ _ _ hcs => .literal hcs
  | @name id span hname =>
    obtain ⟨s, hs, hemits⟩ := @listName_emits b loops ls script images h id span hname
    simp only [list, hs]
    exact hemits.bind fun i => Emits.pure fun _ _ _ hi => hi

end Expressions

/-! ### Statements -/

section Statements

variable {script : Script} {images : List (String × ImageRole)}

private theorem assign_emits (h : Bound script images b) {target : Ident} {op : AssignOp}
    {value : RasterScript.Expr} {span : Span}
    {shape : Binding.Shape} {s : Symbol} (hvalue : BoundExpr b loops value shape)
    (hplain : constant? target.name = none) (hs : Global b loops target s)
    (hassign : Binding.Assignable s.kind op shape) :
    Emits b loops ls (assign b target op value) fun cs S =>
      CodedStmt b.table.declared (S.layout b) ls (.assign target op value span) cs := by
  have wf := h.good.wf
  have hsymbol := wf.symbol?_id hs.mem
  rw [assign, symbolOf_eq h hs.noted hsymbol, pure_bind]
  cases hkind : s.kind <;> rw [hkind] at hassign <;> cases hassign
  case scalar =>
    simp only [hkind]
    refine (scalarSlot_emits h hs.noted hsymbol (.inl hkind)).bind fun r => ?_
    cases r with
    | none => exact Emits.pure fun S _ _ ⟨_, hnone, _⟩ => nomatch hnone
    | some slot =>
      refine (scalar_emits h hvalue).bind fun c => ?_
      have hpost (S : Slots) (hls : LoopsAt S loops ls)
          (hc : Coded b.table.declared (S.layout b) ls value c)
          (hslot : ∃ slot', some slot = some slot' ∧ S.scalars.lookup s.id = some slot' ∧
            SlotOf S s slot') :
          CodedStmt b.table.declared (S.layout b) ls (.assign target op value span)
            [.store slot (stored op slot c)] := by
        obtain ⟨_, ⟨⟩, hl, hof⟩ := hslot
        have hat := Slots.variableAt wf hs.mem hkind hof hl
        rw [hs.name] at hat
        exact .assign hplain (hls.free hs.free) (.store hat hc)
      -- The lowering branches on the operator, and stores what `stored` gives in both branches.
      unfold stored at hpost
      cases hop : op.binary? with
      | none =>
        rw [hop] at hpost
        exact Emits.pure fun S _ => hpost S
      | some op' =>
        rw [hop] at hpost
        exact Emits.pure fun S _ => hpost S
  case list =>
    simp only [hkind]
    refine (listSlot_emits h hs.mem hkind).bind fun i => (list_emits h hvalue).bind fun c => ?_
    refine Emits.pure fun S _ hls hc hi => ?_
    have hat := Slots.listAt wf hs.mem hs.global hkind hi
    rw [hs.name] at hat
    exact .assign hplain (hls.free hs.free) (.storeList hat hc)
  case image =>
    obtain ⟨i, hi, hat⟩ := Slots.imageAt wf .destination hs.mem hkind
    have hindex : imageIndex? b .destImage s.id = some i := hi
    simp only [hkind, hindex]
    rw [hs.name] at hat
    exact (scalar_emits h hvalue).bind fun c => Emits.pure fun S _ hls hc =>
      .assign hplain (hls.free hs.free) (.write hat hc)

/-- A loop variable gets a pixel slot. -/
theorem loopSlot_emits (h : Bound script images b) {var : Ident} {id : SymbolId} {s : Symbol}
    (hnoted : (var.span, .symbol id) ∈ b.names) (hs : b.table.symbol? id = some s)
    (hkind : s.kind = .loopVar) :
    Emits b loops ls (scalarSlot b var.span var.name) fun r S =>
      ∃ i, r = some (.pixel i) ∧ S.scalars.lookup id = some (.pixel i) := by
  refine (scalarSlot_emits h hnoted hs (.inr hkind)).mono fun r S _ _ hslot => ?_
  obtain ⟨slot, rfl, hl, hof⟩ := hslot
  cases hof with
  | loop => exact ⟨_, rfl, hl⟩
  | image hscalar | pixel hscalar => rw [hkind] at hscalar; cases hscalar

/-- The slot of a loop variable is no one else's. -/
theorem loop_fresh (h : Bound script images b) {id : SymbolId} {s : Symbol} {n : String} {i : Nat}
    {S : Slots} (hok : S.Ok b)
    (hs : b.table.symbol? id = some s) (hkind : s.kind = .loopVar) (hfresh : ∀ p ∈ loops, p.2 ≠ id)
    (hls : LoopsAt S ((n, id) :: loops) ((n, i) :: ls)) : Fresh (S.layout b) ls i := by
  obtain ⟨⟨-, hl⟩, htail⟩ := List.forall₂_cons.mp hls
  refine hok.fresh h.good.wf hs hkind hl fun p hp => ?_
  clear hl hls
  induction htail with
  | nil => cases hp
  | @cons l q loops ls hq _ ih =>
    rcases List.mem_cons.mp hp with rfl | hp
    · exact ⟨l.2, hfresh l List.mem_cons_self, hq.2⟩
    · exact ih (fun r hr => hfresh r (List.mem_cons_of_mem l hr)) hp

mutual

theorem stmt_emits (h : Bound script images b) :
    ∀ {loops s}, BoundStmt b loops s → ∀ ls, Emits b loops ls (stmt b s)
      fun cs S => CodedStmt b.table.declared (S.layout b) ls s cs
  | _, _, .assign hvalue hplain hs hassign, ls => by
    rw [stmt]
    exact assign_emits h hvalue hplain hs hassign
  | _, _, .cond ht hy hn, ls => by
    rw [stmt]
    exact (scalar_emits h ht).bind fun _ => (stmt_emits h hy ls).bind fun _ =>
      (other_emits h hn ls).bind fun _ => Emits.pure fun _ _ _ hds hcs hc => .cond hc hcs hds
  | _, _, .loop ht hbody, ls => by
    rw [stmt]
    exact (scalar_emits h ht).bind fun _ => (stmt_emits h hbody ls).bind fun _ =>
      Emits.pure fun _ _ _ hcs hc => .loop hc hcs
  | _, _, .foreach (.list hitems) hnoted hs hkind hfresh hbody, ls => by
    rw [stmt]
    refine (loopSlot_emits h hnoted hs hkind).bindLoop fun i =>
      (list_emits h hitems).inside.bind fun _ => (stmt_emits h hbody _).bind fun _ => ?_
    exact Emits.pure fun S hok hls hcs hc =>
      .foreachItem (loop_fresh h hok hs hkind hfresh hls) hc hcs
  | _, _, .foreach (.range hlow hhigh) hnoted hs hkind hfresh hbody, ls => by
    rw [stmt]
    refine (loopSlot_emits h hnoted hs hkind).bindLoop fun i =>
      (scalar_emits h hlow).inside.bind fun _ => (scalar_emits h hhigh).inside.bind fun _ =>
      (stmt_emits h hbody _).bind fun _ => ?_
    exact Emits.pure fun S hok hls hcs hd hc =>
      .foreachInt (loop_fresh h hok hs hkind hfresh hls) hc hd hcs
  | _, _, .block hbody, ls => by
    rw [stmt]
    exact (stmts_emits h hbody ls).mono fun _ _ _ _ hcs => .block hcs
  | _, _, .breakIf ht, ls => by
    rw [stmt]
    exact (scalar_emits h ht).bind fun _ => Emits.pure fun _ _ _ hc => .breakIf hc
  | _, _, .leave, ls => by
    rw [stmt]
    exact Emits.pure fun _ _ _ => .leave

private theorem other_emits (h : Bound script images b) :
    ∀ {loops s}, BoundElse b loops s → ∀ ls, Emits b loops ls (other b s)
      fun cs S => CodedElse b.table.declared (S.layout b) ls s cs
  | _, _, .none, ls => by
    rw [other]
    exact Emits.pure fun _ _ _ => .none
  | _, _, .some hs, ls => by
    rw [other]
    exact (stmt_emits h hs ls).mono fun _ _ _ _ hcs => .some hcs

private theorem stmts_emits (h : Bound script images b) :
    ∀ {loops ss}, BoundStmts b loops ss → ∀ ls, Emits b loops ls (stmts b ss)
      fun cs S => CodedStmts b.table.declared (S.layout b) ls ss cs
  | _, _, .nil, ls => by
    rw [stmts]
    exact Emits.pure fun _ _ _ => .nil
  | _, _, .cons hs hss, ls => by
    rw [stmts]
    exact (stmt_emits h hs ls).bind fun _ => (stmts_emits h hss ls).bind fun _ =>
      Emits.pure fun _ _ _ hds hcs => .cons hcs hds

end

/-! ### Scripts -/

private theorem initValue_emits (h : Bound script images b) {v : NamedValue} (hv : BoundInit b v) :
    Emits b [] [] (initValue b v) fun cs S => ∀ vs ds,
      CodedValues b.table.declared (S.layout b) vs ds →
        CodedValues b.table.declared (S.layout b) (v :: vs) (cs ++ ds) := by
  obtain ⟨hvalue, hplain, s, hs, hkind, hscope⟩ := hv
  rw [initValue]
  refine (scalar_emits h hvalue).bind fun c => ?_
  refine (scalarSlot_emits h hs.noted (h.good.wf.symbol?_id hs.mem) (.inl hkind)).bind fun r => ?_
  cases r with
  | none => exact Emits.pure fun S _ _ ⟨_, hnone, _⟩ => nomatch hnone
  | some slot =>
    refine Emits.pure fun S _ _ hslot hc vs ds hds => ?_
    obtain ⟨_, ⟨⟩, hl, hof⟩ := hslot
    have hat := Slots.variableAt h.good.wf hs.mem hkind hof hl
    rw [hs.name] at hat
    cases hof with
    | image =>
      cases hat with
      | image hkept hname => exact .cons hplain hkept hname hc hds
    | pixel _ hpixel => rw [hscope] at hpixel; cases hpixel
    | loop hloop => rw [hkind] at hloop; cases hloop

private theorem initValues_emits (h : Bound script images b) : ∀ vs, (∀ v ∈ vs, BoundInit b v) →
    Emits b [] [] (initValues b vs) fun cs S => CodedValues b.table.declared (S.layout b) vs cs
  | [], _ => by
    rw [initValues]
    exact Emits.pure fun _ _ _ => .nil
  | v :: vs, hvs => by
    rw [initValues]
    have hv := initValue_emits h (hvs v List.mem_cons_self)
    exact hv.bind fun _ =>
      (initValues_emits h vs fun w hw => hvs w (List.mem_cons_of_mem v hw)).bind fun _ =>
        Emits.pure fun _ _ _ hds hcs => hcs _ _ hds

theorem init_emits (h : Bound script images b) : ∀ items, (∀ i ∈ items, BoundItem b i) →
    Emits b [] [] (init b items) fun cs S => CodedInit b.table.declared (S.layout b) items cs
  | [], _ => by
    rw [init]
    exact Emits.pure fun _ _ _ => .nil
  | i :: items, hitems => by
    have hrest := init_emits h items fun j hj => hitems j (List.mem_cons_of_mem i hj)
    cases hitems i List.mem_cons_self with
    | init hvalues =>
      rw [init]
      exact (initValues_emits h _ hvalues).bind fun _ => hrest.bind fun _ =>
        Emits.pure fun _ _ _ hds hcs => .init hcs hds
    | images =>
      rw [init]
      · exact hrest.mono fun _ _ _ _ hcs => .images hcs
      · nofun
    | options =>
      rw [init]
      · exact hrest.mono fun _ _ _ _ hcs => .options hcs
      · nofun
    | stmt _ =>
      rw [init]
      · exact hrest.mono fun _ _ _ _ hcs => .stmt hcs
      · nofun

theorem body_emits (h : Bound script images b) : ∀ items, (∀ i ∈ items, BoundItem b i) →
    Emits b [] [] (body b items) fun cs S => CodedBody b.table.declared (S.layout b) items cs
  | [], _ => by
    rw [body]
    exact Emits.pure fun _ _ _ => .nil
  | i :: items, hitems => by
    have hrest := body_emits h items fun j hj => hitems j (List.mem_cons_of_mem i hj)
    cases hitems i List.mem_cons_self with
    | stmt hs =>
      rw [body]
      exact (stmt_emits h hs []).bind fun _ => hrest.bind fun _ =>
        Emits.pure fun _ _ _ hds hcs => .stmt hcs hds
    | images =>
      rw [body]
      · exact hrest.mono fun _ _ _ _ hcs => .images hcs
      · nofun
    | options =>
      rw [body]
      · exact hrest.mono fun _ _ _ _ hcs => .options hcs
      · nofun
    | init _ =>
      rw [body]
      · exact hrest.mono fun _ _ _ _ hcs => .init hcs
      · nofun

end Statements

end Lower

/-- A script whose names are bound has code, and the lowering gives it. -/
theorem ofScript_eq_ok {script : Script} {images : List (String × ImageRole)} {b : Binding}
    (h : Binding.Bound script images b) :
    ∃ (s : Slots) (code : Code), s.Ok b ∧ ofScript script b = .ok code ∧
      CodeOf b.table.declared (s.layout b) script code := by
  have hemits : Lower.Emits b [] []
      (do
        let init ← Lower.init b script.items
        let body ← Lower.body b script.items
        return (init, body) : Lower (List Stmt × List Stmt))
      fun p S => CodedInit b.table.declared (S.layout b) script.items p.1 ∧
        CodedBody b.table.declared (S.layout b) script.items p.2 :=
    (Lower.init_emits h _ h.items).bind fun _ => (Lower.body_emits h _ h.items).bind fun _ =>
      Lower.Emits.pure fun _ _ _ hbody hinit => ⟨hinit, hbody⟩
  obtain ⟨hfaults, -, hok, hcoded⟩ := hemits .empty (Slots.ok_empty b) .nil
  obtain ⟨hinit, hbody⟩ := hcoded _ (.refl _) hok .nil
  rw [ofScript]
  generalize StateT.run _ Slots.empty = r at hfaults hok hinit hbody ⊢
  obtain ⟨⟨init, body⟩, s⟩ := r
  have hempty : s.faults.isEmpty := by
    rw [show s.faults = [] from hfaults]
    rfl
  refine ⟨s, _, hok, if_pos hempty, ?_⟩
  exact
    { separate := hok.separate_layout h.good.wf
      sources := (Slots.names_images h.good.wf .source).symm
      destinations := (Slots.names_images h.good.wf .destination).symm
      imageSlots := rfl
      pixelSlots := rfl
      listSlots := rfl
      init := hinit
      body := hbody }

end RasterScript.Code
