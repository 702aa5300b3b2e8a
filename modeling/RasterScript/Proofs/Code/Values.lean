import Mathlib.Data.List.Forall2
import RasterScript.Proofs.Code.Layout

/-! Expressions and their code have the same value, as long as the memory holds what the names stand
for. -/
namespace RasterScript

namespace Direct.Meaning

variable {α β : Type}

private theorem of_bind (x : Except Failure α) (f : α → Except Failure β) :
    (of x >>= fun a => of (f a)) = of (x >>= f) := by
  cases x <;> rfl

theorem of_one_scalar (x : Except Failure Float) :
    (do (← of (x.map Value.one)).scalar) = of x := by
  cases x <;> rfl

end Direct.Meaning

namespace Code

open Direct (Declared Role Setting Store Locals Value Meaning Precedence)
open Direct.Meaning (of_bind of_one_scalar)

/-! ### Memory and store -/

/-- A slot holds the value of a loop variable. -/
def LoopAt (values : List Float) (l : String × Nat) (x : String × Float) : Prop :=
  l.1 = x.1 ∧ values[l.2]? = some x.2

/-- The memory holds what the names of a store and of the loops around a place stand for. -/
structure Holds (D : Declared) (L : Layout) (ls : LoopSlots) (locals : Locals) (st : Store)
    (m : Memory) : Prop where
  image : m.imageValues = L.image.map st.image
  lists : m.lists = L.lists.map st.lists
  outputs : m.outputs = (D.names .destination).map st.outputs
  count : m.pixelValues.length = L.count
  pixel : ∀ {n i}, L.pixel n = some i → m.pixelValues[i]? = some (st.pixel n)
  loops : List.Forall₂ (LoopAt m.pixelValues) ls locals
  apart : ∀ l ∈ ls, ∀ n, L.pixel n ≠ some l.2

section Reads

variable {D : Declared} {L : Layout} {ls : LoopSlots} {locals : Locals} {st : Store} {m : Memory}
  {name : String}

private theorem lookup_loops {values : List Float}
    (h : List.Forall₂ (LoopAt values) ls locals) (name : String) :
    locals.lookup name = (ls.lookup name).map fun i => values.getD i 0 := by
  induction h with
  | nil => rfl
  | @cons l x ls locals hlx _ ih =>
    obtain ⟨n, i⟩ := l
    obtain ⟨n', v⟩ := x
    obtain ⟨rfl, hv⟩ : n = n' ∧ values[i]? = some v := hlx
    rw [List.lookup_cons, List.lookup_cons, ih]
    cases name == n with
    | false => rfl
    | true => simp [List.getD_eq_getElem?_getD, hv]

theorem Holds.lookup (h : Holds D L ls locals st m) (name : String) :
    locals.lookup name = (ls.lookup name).map fun i => m.load (.pixel i) :=
  lookup_loops h.loops name

theorem Holds.lookup_none (h : Holds D L ls locals st m) (hn : ls.lookup name = none) :
    locals.lookup name = none := by
  rw [h.lookup, hn, Option.map_none]

theorem Holds.loadList (h : Holds D L ls locals st m) {i : Nat} (hi : L.lists[i]? = some name) :
    m.loadList i = st.lists name := by
  simp [Memory.loadList, h.lists, hi]

end Reads

section Names

variable {w : Setting} {L : Layout} {ls : LoopSlots} {locals : Locals} {st : Store} {m : Memory}
  {name : String}

theorem Holds.scoped?_loop (h : Holds w.declared L ls locals st m) {i : Nat}
    (hn : ls.lookup name = some i) :
    w.scoped? locals st name = some (.value (.one (m.load (.pixel i)))) := by
  rw [Setting.scoped?, h.lookup, hn, Option.map_some]

theorem Holds.scoped?_variable (h : Holds w.declared L ls locals st m) {slot : Slot}
    (hn : ls.lookup name = none) (hv : VariableAt w.declared L name slot) :
    w.scoped? locals st name = some (.value (.one (m.load slot))) := by
  rw [Setting.scoped?, h.lookup_none hn]
  cases hv with
  | pixel hd hi => simp [hd, Memory.load, h.pixel hi]
  | image hd hi => simp [hd, Memory.load, h.image, hi]

theorem Holds.scoped?_list (h : Holds w.declared L ls locals st m) {i : Nat}
    (hn : ls.lookup name = none) (hl : ListAt w.declared L name i) :
    w.scoped? locals st name = some (.value (.many (m.loadList i))) := by
  rw [Setting.scoped?, h.lookup_none hn, hl.declared, h.loadList hl.index]

theorem Holds.scoped?_source (h : Holds w.declared L ls locals st m) {i : Nat}
    (hn : ls.lookup name = none) (hs : ImageAt w.declared .source name i) :
    w.scoped? locals st name = some (.source i) := by
  rw [Setting.scoped?, h.lookup_none hn, hs.declared, hs.index]
  rfl

/-- Where scopes come first, none of the given constants is hidden. -/
def Clear (w : Setting) (hidden : List String) : Prop := w.first = .scopes → hidden = []

theorem Clear.left {xs ys : List String} (h : Clear w (xs ++ ys)) : Clear w xs :=
  fun hfirst => (List.append_eq_nil_iff.mp (h hfirst)).1

theorem Clear.right {xs ys : List String} (h : Clear w (xs ++ ys)) : Clear w ys :=
  fun hfirst => (List.append_eq_nil_iff.mp (h hfirst)).2

private theorem lookup_eq_none_of_not_mem {α : Type} {xs : List (String × α)}
    (h : name ∉ xs.map (·.1)) : xs.lookup name = none :=
  List.lookup_eq_none_iff.mpr fun p hp => by
    have : p.1 ≠ name := fun hn => h (List.mem_map.mpr ⟨p, hp, hn⟩)
    simpa using this.symm

/-- A constant that is not hidden is in no scope. -/
theorem Holds.scoped?_eq_none (h : Holds w.declared L ls locals st m)
    (hc : (constant? name).isSome) (hhides : w.declared.hides (ls.map (·.1)) name = false) :
    w.scoped? locals st name = none := by
  simp only [Declared.hides, hc, Bool.true_and, Bool.or_eq_false_iff] at hhides
  obtain ⟨hloops, hdeclared⟩ := hhides
  have hl : name ∉ ls.map (·.1) := by simpa using hloops
  rw [Setting.scoped?, h.lookup_none (lookup_eq_none_of_not_mem hl)]
  cases hd : w.declared.lookup name with
  | none => rfl
  | some role =>
    rw [hd] at hdeclared
    obtain rfl : role = .destination := by simpa using hdeclared
    rfl

theorem Holds.denotes?_constant (h : Holds w.declared L ls locals st m) {id : Ident} {span : Span}
    (hclear : Clear w (Direct.hidden w.declared (ls.map (·.1)) (.name id span))) {v : Float}
    (hc : constant? id.name = some v) :
    w.denotes? locals st id.name = some (.value (.one v)) := by
  rw [Setting.denotes?, hc]
  cases hfirst : w.first with
  | constants => rfl
  | scopes =>
    have hhides : w.declared.hides (ls.map (·.1)) id.name = false := by
      simpa [Direct.hidden] using hclear hfirst
    rw [h.scoped?_eq_none (by rw [hc]; rfl) hhides]
    rfl

private theorem denotes?_of_constant?_eq_none (hc : constant? name = none) :
    w.denotes? locals st name = w.scoped? locals st name := by
  rw [Setting.denotes?, hc]
  cases w.first <;> simp

end Names

/-! ### Expressions -/

section Expressions

variable {w : Setting} {L : Layout} {ls : LoopSlots} {locals : Locals} {st : Store} {m : Memory}

/-- The meaning of an expression that stands for one value. -/
def scalarOf (w : Setting) (locals : Locals) (st : Store) (e : RasterScript.Expr) : Meaning Float :=
  do (← Direct.eval w locals st e).scalar

private theorem coords_eq_map (cs : List (Coord RasterScript.Expr)) :
    Direct.coords w locals st cs = cs.map (Coord.map (scalarOf w locals st)) := by
  induction cs with
  | nil => rw [Direct.coords, List.map_nil]
  | cons c cs ih =>
    obtain ⟨relative, value, span⟩ := c
    rw [Direct.coords, Direct.coord, ih]
    rfl

private theorem groups_eq_map (ss : List (Selector RasterScript.Expr)) :
    Direct.groups w locals st ss = ss.map (Selector.map (scalarOf w locals st)) := by
  induction ss with
  | nil => rw [Direct.groups, List.map_nil]
  | cons s ss ih =>
    obtain ⟨cs, span⟩ := s
    rw [Direct.groups, Direct.group, coords_eq_map, ih]
    rfl

private theorem read_eq {i : Nat} {access : Access (Meaning Float)} {band : Option Expr}
    {point : Option (Point Expr)}
    (hband : access.band.getD (pure 0) = .of (Machine.evalBand w.env m band))
    (hpoint : w.place access.position = .of (Machine.evalPoint w.env m point)) :
    w.read i access = .of (Machine.eval w.env m (.read i band point)) := by
  rw [Setting.read, hband, hpoint, Machine.eval, ← of_bind]
  refine congrArg (Meaning.of (Machine.evalBand w.env m band) >>= ·) (funext fun b => ?_)
  exact of_bind (Machine.evalPoint w.env m point) fun p => w.env.sample i b p.1 p.2

private theorem clear_of_mem_coords {cs : List (Coord RasterScript.Expr)} {loops : List String}
    (hclear : Clear w (Direct.hiddenCoords w.declared loops cs)) {e : RasterScript.Expr}
    (he : e ∈ cs.map (·.value)) : Clear w (Direct.hidden w.declared loops e) := by
  induction cs with
  | nil => cases he
  | cons c cs ih =>
    obtain ⟨relative, value, span⟩ := c
    rw [Direct.hiddenCoords] at hclear
    rcases List.mem_cons.mp he with rfl | he
    · exact hclear.left
    · exact ih hclear.right he

private theorem clear_of_mem_values {ss : List (Selector RasterScript.Expr)} {loops : List String}
    (hclear : Clear w (Direct.hiddenGroups w.declared loops ss)) {e : RasterScript.Expr}
    (he : e ∈ Selector.values ss) : Clear w (Direct.hidden w.declared loops e) := by
  induction ss with
  | nil => cases he
  | cons s ss ih =>
    obtain ⟨cs, span⟩ := s
    rw [Direct.hiddenGroups] at hclear
    rw [Selector.values, List.flatMap_cons] at he
    rcases List.mem_append.mp he with he | he
    · exact clear_of_mem_coords hclear.left he
    · exact ih hclear.right he

mutual

/-- An expression that stands for one value has the value of its code, or fails like it. -/
theorem eval_coded (h : Holds w.declared L ls locals st m) : ∀ {e c}, Coded w.declared L ls e c →
    Clear w (Direct.hidden w.declared (ls.map (·.1)) e) →
      Direct.eval w locals st e = .of ((Machine.eval w.env m c).map .one)
  | _, _, .number, _ => by
    rw [Direct.eval, Machine.eval]
    rfl
  | _, _, .constant hc, hclear => by
    rw [Direct.eval, h.denotes?_constant hclear hc, Machine.eval]
    rfl
  | _, _, .loop hc hl, _ => by
    rw [Direct.eval, denotes?_of_constant?_eq_none hc, h.scoped?_loop hl, Machine.eval]
    rfl
  | _, _, .load hc hl hv, _ => by
    rw [Direct.eval, denotes?_of_constant?_eq_none hc, h.scoped?_variable hl hv, Machine.eval]
    rfl
  | _, _, @Coded.source _ _ _ _ _ i hc hl hs, _ => by
    have hread : w.read i ⟨none, none⟩ = .of (Machine.eval w.env m (.read i none none)) :=
      read_eq (by rw [Machine.evalBand]; rfl) (by rw [Machine.evalPoint]; rfl)
    rw [Direct.eval, denotes?_of_constant?_eq_none hc, h.scoped?_source hl hs]
    show (do return .one (← w.read i ⟨none, none⟩) : Meaning Value) = _
    rw [hread]
    cases Machine.eval w.env m (.read i none none) <;> rfl
  | _, _, @Coded.image _ _ _ _ selectors _ i access band point hl hs ha hband hpoint, hclear => by
    rw [Direct.hidden] at hclear
    obtain ⟨hbands, hpoints⟩ := Access.mem_values ha
    have hread : w.read i (access.map (scalarOf w locals st)) =
        Meaning.of (Machine.eval w.env m (.read i band point)) :=
      read_eq (evalBand_coded h hband fun e he => clear_of_mem_values hclear (hbands e he))
        (evalPoint_coded h hpoint fun x y hxy =>
          ⟨clear_of_mem_values hclear (hpoints x y hxy).1,
            clear_of_mem_values hclear (hpoints x y hxy).2⟩)
    rw [Direct.eval, groups_eq_map, Access.ofSelectors_map, ha, h.scoped?_source hl hs]
    show (do return .one (← w.read i (access.map (scalarOf w locals st))) : Meaning Value) = _
    rw [hread]
    cases Machine.eval w.env m (.read i band point) <;> rfl
  | _, _, @Coded.position _ _ _ _ _ _ p hf, _ => by
    rw [Direct.eval, hf, Machine.eval]
    simp only []
    cases w.env.position p <;> rfl
  | _, _, @Coded.call _ _ _ _ _ _ _ cs hf hargs, hclear => by
    rw [Direct.hidden] at hclear
    rw [Direct.eval, hf, Machine.eval]
    simp only []
    rw [evalScalars_coded h hargs hclear]
    cases Machine.evalAll w.env m cs <;> rfl
  | _, _, @Coded.statistic _ _ _ _ _ _ _ cs hf hargs, hclear => by
    rw [Direct.hidden] at hclear
    rw [Direct.eval, hf, Machine.eval]
    simp only []
    rw [evalArguments_coded h hargs hclear]
    cases Machine.evalArguments w.env m cs <;> rfl
  | _, _, @Coded.unary _ _ _ _ _ _ c ha, hclear => by
    rw [Direct.hidden] at hclear
    rw [Direct.eval, eval_coded h ha hclear, Machine.eval]
    cases Machine.eval w.env m c <;> rfl
  | _, _, @Coded.binary _ _ _ op _ _ _ c d ha hb, hclear => by
    rw [Direct.hidden] at hclear
    rw [Direct.eval, eval_coded h ha hclear.left, eval_coded h hb hclear.right, Machine.eval]
    cases Machine.eval w.env m c with
    | error f => rfl
    | ok x =>
      show (if Machine.deciding op x then _ else _ : Meaning Value) =
        Meaning.of (Except.map _ (if Machine.deciding op x then _ else _))
      split
      · rfl
      · cases Machine.eval w.env m d <;> rfl
  | _, _, @Coded.cond _ _ _ _ _ _ _ c d e ht hy hn, hclear => by
    rw [Direct.hidden] at hclear
    rw [Direct.eval, eval_coded h ht hclear.left, eval_coded h hy hclear.right.left,
      eval_coded h hn hclear.right.right, Machine.eval]
    cases Machine.eval w.env m c with
    | error f => rfl
    | ok x =>
      show (if Number.truthy x then _ else _ : Meaning Value) =
        Meaning.of (Except.map _ (if Number.truthy x then _ else _))
      split
      · cases Machine.eval w.env m d <;> rfl
      · cases Machine.eval w.env m e <;> rfl

private theorem evalScalars_coded (h : Holds w.declared L ls locals st m) :
    ∀ {es cs}, CodedAll w.declared L ls es cs →
      Clear w (Direct.hiddenAll w.declared (ls.map (·.1)) es) →
        Direct.evalScalars w locals st es = .of (Machine.evalAll w.env m cs)
  | _, _, .nil, _ => by
    rw [Direct.evalScalars, Machine.evalAll]
    rfl
  | _, _, @CodedAll.cons _ _ _ _ _ c cs he hes, hclear => by
    rw [Direct.hiddenAll] at hclear
    rw [Direct.evalScalars, eval_coded h he hclear.left, evalScalars_coded h hes hclear.right,
      Machine.evalAll]
    cases Machine.eval w.env m c with
    | error f => rfl
    | ok x => cases Machine.evalAll w.env m cs <;> rfl

theorem evalItems_coded (h : Holds w.declared L ls locals st m) :
    ∀ {e c}, CodedItems w.declared L ls e c →
      Clear w (Direct.hidden w.declared (ls.map (·.1)) e) →
        Direct.eval w locals st e = .of ((Machine.evalItems w.env m c).map .many)
  | _, _, @CodedItems.literal _ _ _ _ _ cs hitems, hclear => by
    rw [Direct.hidden] at hclear
    rw [Direct.eval, evalScalars_coded h hitems hclear, Machine.evalItems]
    cases Machine.evalAll w.env m cs <;> rfl
  | _, _, .slot hc hl hi, _ => by
    rw [Direct.eval, denotes?_of_constant?_eq_none hc, h.scoped?_list hl hi, Machine.evalItems]
    rfl

private theorem evalArguments_coded (h : Holds w.declared L ls locals st m) :
    ∀ {es cs}, CodedArguments w.declared L ls es cs →
      Clear w (Direct.hiddenAll w.declared (ls.map (·.1)) es) →
        Direct.evalItems w locals st es = .of (Machine.evalArguments w.env m cs)
  | _, _, .nil, _ => by
    rw [Direct.evalItems, Machine.evalArguments]
    rfl
  | _, _, @CodedArguments.one _ _ _ _ _ c cs he hes, hclear => by
    rw [Direct.hiddenAll] at hclear
    rw [Direct.evalItems, eval_coded h he hclear.left, evalArguments_coded h hes hclear.right,
      Machine.evalArguments, Machine.evalArgument]
    cases Machine.eval w.env m c with
    | error f => rfl
    | ok x => cases Machine.evalArguments w.env m cs <;> rfl
  | _, _, @CodedArguments.many _ _ _ _ _ c cs he hes, hclear => by
    rw [Direct.hiddenAll] at hclear
    rw [Direct.evalItems, evalItems_coded h he hclear.left, evalArguments_coded h hes hclear.right,
      Machine.evalArguments, Machine.evalArgument]
    cases Machine.evalItems w.env m c with
    | error f => rfl
    | ok x => cases Machine.evalArguments w.env m cs <;> rfl

private theorem evalBand_coded (h : Holds w.declared L ls locals st m) :
    ∀ {band c}, CodedBand w.declared L ls band c →
      (∀ e, band = some e → Clear w (Direct.hidden w.declared (ls.map (·.1)) e)) →
        (band.map (scalarOf w locals st)).getD (pure 0) = .of (Machine.evalBand w.env m c)
  | _, _, .none, _ => by
    rw [Machine.evalBand]
    rfl
  | _, _, @CodedBand.some _ _ _ e c he, hclear => by
    rw [Machine.evalBand, Option.map_some, Option.getD_some, scalarOf,
      eval_coded h he (hclear e rfl), of_one_scalar]

private theorem evalPoint_coded (h : Holds w.declared L ls locals st m) :
    ∀ {point c}, CodedPoint w.declared L ls point c →
      (∀ x y, point = some (x, y) → Clear w (Direct.hidden w.declared (ls.map (·.1)) x.value) ∧
        Clear w (Direct.hidden w.declared (ls.map (·.1)) y.value)) →
        w.place (point.map fun p =>
          (p.1.map (scalarOf w locals st), p.2.map (scalarOf w locals st))) =
          .of (Machine.evalPoint w.env m c)
  | _, _, .none, _ => by
    rw [Machine.evalPoint]
    rfl
  | _, _, @CodedPoint.some _ _ _ x y c d hx hy, hclear => by
    obtain ⟨hcx, hcy⟩ := hclear x y rfl
    have hvx : scalarOf w locals st x.value = .of (Machine.eval w.env m c) := by
      rw [scalarOf, eval_coded h hx hcx, of_one_scalar]
    have hvy : scalarOf w locals st y.value = .of (Machine.eval w.env m d) := by
      rw [scalarOf, eval_coded h hy hcy, of_one_scalar]
    rw [Machine.evalPoint, Machine.evalPlaces, Machine.evalPlace, Machine.evalPlace]
    simp only [Option.map_some, Setting.place, Coord.map, hvx, hvy]
    cases Machine.eval w.env m c with
    | error f => rfl
    | ok vx => cases Machine.eval w.env m d <;> rfl

end

end Expressions

end Code

end RasterScript
