import RasterScript.Proofs.Binding.Lexical

/-! Every name of a script that is bound without an error is noted as the symbol that it means by
lexical scope. -/
namespace RasterScript.Binding

open SymbolTable (WellFormed imageScope pixelScope)

/-- The value of a mention that is the bare name of a constant. -/
def bareConstant? : Mention → Option Float
  | .name id => constant? id.name
  | _ => none

/-- The variable of the `foreach` that declares it at this place. -/
def loopVariable? (b : Binding) (var : Ident) : Option Symbol :=
  ((b.symbolAt? var.span).bind b.table.symbol?).filter
    fun y => y.kind = .loopVar && y.span = var.span

/-- The variable of the pixel of a name, if it was declared before the place of the name. -/
def declaredBefore? (b : Binding) (id : Ident) : Option Symbol :=
  (b.table.lookup pixelScope id.name).filter fun y => y.span.stop ≤ id.span.start

/-- What a name means by lexical scope, given the variables of the `foreach` statements in whose
bodies it lies, the innermost first. -/
def lexical? (b : Binding) (vars : List Ident) (id : Ident) : Option Symbol :=
  match vars.find? (·.name = id.name) with
  | some var => b.loopVariable? var
  | none => (b.declaredBefore? id).or (b.table.lookup imageScope id.name)

section Scoping

variable {script : Script} {images : List (String × ImageRole)} {b : Binding} {site : Site}
  {id : Ident} {y : Symbol}

private theorem loopVariable?_eq (h : Bound script images b) {var : Ident}
    (hy : y ∈ b.table.symbols) (hkind : y.kind = .loopVar) (hspan : y.span = var.span)
    (hnoted : (var.span, .symbol y.id) ∈ b.names) : b.loopVariable? var = some y := by
  rw [loopVariable?, symbolAt?_eq h hnoted, Option.bind_some, h.good.wf.symbol?_id hy]
  simp [Option.filter, hkind, hspan]

/-- A name of the image scope is none of the pixel. -/
theorem lookup_pixel_eq_none (h : WellFormed b.table) (hy : y ∈ b.table.symbols)
    (hscope : y.scope = imageScope) : b.table.lookup pixelScope y.name = none := by
  cases hz : b.table.lookup pixelScope y.name with
  | none => rfl
  | some z =>
    obtain ⟨hmem, hpixel, hname⟩ := h.mem_of_lookup hz
    have hsame := h.apart y hy z hmem (by simp [SymbolTable.isGlobal, hscope, imageScope])
      (by simp [SymbolTable.isGlobal, hpixel, pixelScope]) hname.symm
    rw [hsame, hpixel] at hscope
    cases hscope

theorem LexicalName.lexical?_eq (h : Bound script images b) (hy : LexicalName b site id y) :
    b.lexical? site.loops id = some y := by
  have hlookup := h.good.wf.lookup_eq hy.mem
  rw [hy.name] at hlookup
  unfold lexical?
  cases hy.means with
  | loop hv hkind hspan hnoted =>
    rw [hv]
    exact loopVariable?_eq h hy.mem hkind hspan hnoted
  | pixel hv hscope hbefore =>
    rw [hscope] at hlookup
    have hearlier : y.span.stop ≤ id.span.start := hbefore
    rw [hv]
    simp [declaredBefore?, hlookup, Option.filter, hearlier]
  | image hv hscope =>
    have hnone := lookup_pixel_eq_none h.good.wf hy.mem hscope
    rw [hy.name] at hnone
    rw [hscope] at hlookup
    rw [hv]
    simp [declaredBefore?, hnone, hlookup]

end Scoping

/-- In every script that is read and bound without an error, each name in expression position is
noted as what it means by lexical scope, unless it is the bare name of a constant, and no two names
of a scope, nor names of two scopes, share a symbol. -/
theorem names_are_lexical (text : String) (dialect : Dialect) (images : List (String × ImageRole))
    (herrors : ∀ f ∈ (ofScript (Script.parse text dialect).script images).2,
      f.what.level ≠ .error) :
    let script := (Script.parse text dialect).script
    let b := (ofScript script images).1
    (∀ o ∈ script.occurrences, bareConstant? o.2 = none →
      ∃ y, b.lexical? o.1 o.2.ident = some y ∧ b.referent? o.2.place = some (.symbol y.id)) ∧
    ∀ y ∈ b.table.symbols, ∀ z ∈ b.table.symbols,
      y.id = z.id ↔ y.scope = z.scope ∧ y.name = z.name := by
  intro script b
  have horder := Script.parse_inOrder text dialect
  have hbound : Bound script images b := ofScript_bound script images horder.nodup herrors
  have hproper : ∀ u ∈ script.uses, Proper b u :=
    ofScript_proper script images horder.ordered herrors
  refine ⟨?_, ?_⟩
  · intro o ho hconst
    obtain ⟨⟨site, u⟩, hu, hoccurs⟩ := List.mem_filterMap.mp ho
    obtain ⟨m, hm, rfl⟩ := Option.map_eq_some_iff.mp hoccurs
    have hlexical : ∃ y, LexicalName b site m.ident y := by
      match u, hm, hproper _ hu with
      | .mention (.name _), rfl, h => exact h hconst
      | .mention (.image _), rfl, h => exact h
    obtain ⟨y, hy⟩ := hlexical
    exact ⟨y, hy.lexical?_eq hbound, referent?_eq hbound hy.noted⟩
  · intro y hy z hz
    constructor
    · intro hid
      obtain rfl := hbound.good.wf.eq_of_id hy hz hid
      exact ⟨rfl, rfl⟩
    · rintro ⟨hscope, hname⟩
      rw [hbound.good.wf.unique hy hz hscope hname]

/-- Two loops over variables of one name, with a name of each kind inside. -/
def nestedNames : String :=
  "init \x7b k = 2; \x7d\nn = 0;\nforeach (i in 1:3) \x7b\n  foreach (i in [k, n]) n += i;\n  n += i * src[0];\n\x7d\ndest = n;\n"

def srcToDest : List (String × ImageRole) := [("src", .source), ("dest", .destination)]

theorem nestedNames_lexical :
    let script := (Script.parse nestedNames .standard).script
    let bound := ofScript script srcToDest
    (∀ f ∈ bound.2, f.what.level ≠ .error) ∧
    script.occurrences.map (fun o => (o.1.length, o.2.ident.name)) =
      [(1, "k"), (1, "n"), (2, "i"), (1, "i"), (1, "src"), (0, "n")] ∧
    ∀ o ∈ script.occurrences, ∃ y, bound.1.lexical? o.1 o.2.ident = some y ∧
      bound.1.referent? o.2.place = some (.symbol y.id) := by
  obtain ⟨herrors, hplain, hnames⟩ :
      (∀ f ∈ (ofScript (Script.parse nestedNames .standard).script srcToDest).2,
        f.what.level ≠ .error) ∧
      (∀ o ∈ (Script.parse nestedNames .standard).script.occurrences,
        bareConstant? o.2 = none) ∧
      (Script.parse nestedNames .standard).script.occurrences.map
          (fun o => (o.1.length, o.2.ident.name)) =
        [(1, "k"), (1, "n"), (2, "i"), (1, "i"), (1, "src"), (0, "n")] := by decide +kernel
  refine ⟨herrors, hnames, fun o ho => ?_⟩
  exact (names_are_lexical nestedNames .standard srcToDest herrors).1 o ho (hplain o ho)

/-- A loop over a variable with the name of a constant. -/
def constantLoop : String := "foreach (M_PI in 1:3) n = M_PI;\ndest = n;\n"

/-- Inside such a loop the name means its variable by lexical scope, but it is noted as the
constant, and no error is reported. -/
theorem constantLoop_notes_constant :
    let script := (Script.parse constantLoop .standard).script
    let bound := ofScript script [("dest", .destination)]
    let var : Ident := ⟨"M_PI", ⟨9, 13⟩⟩
    let id : Ident := ⟨"M_PI", ⟨26, 30⟩⟩
    bound.2 = [] ∧ ([var], .name id) ∈ script.occurrences ∧
    (bound.1.lexical? [var] id).map (·.kind) = some .loopVar ∧
    bound.1.referent? id.span = some (.constant 3.141592653589793) := by
  decide +kernel

end RasterScript.Binding
