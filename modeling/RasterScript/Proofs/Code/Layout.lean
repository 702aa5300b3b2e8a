import RasterScript.Code
import RasterScript.Proofs.Meaning.Direct

/-! The code that an expression or a statement may have, given where its variables are kept. The
rules speak of declared names and of slots, not of the way in which slots are given out. -/
namespace RasterScript

/-! ### Bracketed groups -/

section Access

variable {ε δ : Type}

def Coord.map (f : ε → δ) (c : Coord ε) : Coord δ := ⟨c.relative, f c.value, c.span⟩

def Selector.map (f : ε → δ) (s : Selector ε) : Selector δ := ⟨s.coords.map (Coord.map f), s.span⟩

/-- The coordinates of bracketed groups. -/
def Selector.values (ss : List (Selector ε)) : List ε := ss.flatMap fun s => s.coords.map (·.value)

namespace Access

def map (f : ε → δ) (a : Access ε) : Access δ :=
  ⟨a.band.map f, a.position.map fun (x, y) => (x.map f, y.map f)⟩

private theorem bind_eq_ok {κ α β : Type} {x : Except κ α} {f : α → Except κ β} {b : β}
    (h : x >>= f = .ok b) : ∃ a, x = .ok a ∧ f a = .ok b := by
  cases x with
  | error e => cases h
  | ok a => exact ⟨a, rfl, h⟩

private theorem bandOf_map (f : ε → δ) (s : Selector ε) : bandOf (s.map f) = (bandOf s).map f := by
  obtain ⟨coords, span⟩ := s
  match coords with
  | [] => rfl
  | [c] =>
    simp only [bandOf, Selector.map, List.map_cons, List.map_nil, Coord.map]
    split <;> rfl
  | _ :: _ :: _ => rfl

private theorem pointOf_map (f : ε → δ) (s : Selector ε) :
    pointOf (s.map f) = (pointOf s).map fun (x, y) => (x.map f, y.map f) := by
  obtain ⟨coords, span⟩ := s
  match coords with
  | [] => rfl
  | [_] => rfl
  | [_, _] => rfl
  | _ :: _ :: _ :: _ => rfl

/-- What groups select does not depend on what stands in them. -/
theorem ofSelectors_map (f : ε → δ) : ∀ ss : List (Selector ε),
    ofSelectors (ss.map (Selector.map f)) = (ofSelectors ss).map (Access.map f)
  | [] => rfl
  | [⟨[x, y], span⟩] => rfl
  | [⟨[], span⟩] => rfl
  | [⟨[c], span⟩] => by
    show (do return (⟨some (← bandOf (Selector.map f ⟨[c], span⟩)), none⟩ : Access δ)) =
      (do return (⟨some (← bandOf ⟨[c], span⟩), none⟩ : Access ε)).map (Access.map f)
    rw [bandOf_map]
    cases bandOf (⟨[c], span⟩ : Selector ε) <;> rfl
  | [⟨_ :: _ :: _ :: _, span⟩] => rfl
  | [s, p] => by
    simp only [List.map_cons, List.map_nil, ofSelectors, bandOf_map, pointOf_map]
    cases bandOf s with
    | error f => rfl
    | ok e => cases pointOf p <;> rfl
  | _ :: _ :: _ :: _ => rfl

private theorem bandOf_eq_ok {s : Selector ε} {e : ε} (h : bandOf s = .ok e) :
    ∃ c span, s = ⟨[c], span⟩ ∧ c.value = e := by
  obtain ⟨coords, span⟩ := s
  rw [bandOf] at h
  split at h
  · next c hcoords =>
    split at h
    · cases h
    · exact ⟨c, span, congrArg (Selector.mk · span) hcoords, Except.ok.inj h⟩
  · cases h

private theorem pointOf_eq_ok {s : Selector ε} {x y : Coord ε} (h : pointOf s = .ok (x, y)) :
    ∃ span, s = ⟨[x, y], span⟩ := by
  obtain ⟨coords, span⟩ := s
  rw [pointOf] at h
  split at h
  · next hcoords =>
    cases h
    exact ⟨span, congrArg (Selector.mk · span) hcoords⟩
  · cases h

/-- The groups that select something, and what. -/
inductive Selects : List (Selector ε) → Access ε → Prop where
  | all : Selects [] ⟨none, none⟩
  | band {c span} : Selects [⟨[c], span⟩] ⟨some c.value, none⟩
  | point {x y span} : Selects [⟨[x, y], span⟩] ⟨none, some (x, y)⟩
  | both {c span x y span'} :
      Selects [⟨[c], span⟩, ⟨[x, y], span'⟩] ⟨some c.value, some (x, y)⟩

theorem selects_of_ofSelectors {ss : List (Selector ε)} {a : Access ε}
    (h : ofSelectors ss = .ok a) : Selects ss a := by
  unfold ofSelectors at h
  split at h
  · cases h
    exact .all
  · next s =>
    split at h
    · next x y hcoords =>
      obtain ⟨coords, span⟩ := s
      subst hcoords
      cases h
      exact .point
    · obtain ⟨e, he, ha⟩ := bind_eq_ok h
      obtain ⟨c, span, rfl, rfl⟩ := bandOf_eq_ok he
      cases ha
      exact .band
  · next s p =>
    obtain ⟨e, he, h⟩ := bind_eq_ok h
    obtain ⟨⟨x, y⟩, hq, ha⟩ := bind_eq_ok h
    obtain ⟨c, span, rfl, rfl⟩ := bandOf_eq_ok he
    obtain ⟨span', rfl⟩ := pointOf_eq_ok hq
    cases ha
    exact .both
  · cases h

/-- What groups select stands in them. -/
theorem mem_values {ss : List (Selector ε)} {a : Access ε} (h : ofSelectors ss = .ok a) :
    (∀ e, a.band = some e → e ∈ Selector.values ss) ∧
      ∀ x y, a.position = some (x, y) →
        x.value ∈ Selector.values ss ∧ y.value ∈ Selector.values ss := by
  cases selects_of_ofSelectors h <;> simp [Selector.values]

end Access

end Access

namespace Code

open Direct (Declared Role)

/-- Where the variables of a script are kept. -/
structure Layout where
  /-- The variables in image slots, by number. -/
  image : List String
  /-- The lists in list slots, by number. -/
  lists : List String
  /-- The pixel slot of a variable of the pixel. -/
  pixel : String → Option Nat
  /-- How many pixel slots there are. -/
  count : Nat

/-- No two variables share a slot. -/
structure Layout.Separate (L : Layout) : Prop where
  image : L.image.Nodup
  lists : L.lists.Nodup
  pixel : ∀ {m n i}, L.pixel m = some i → L.pixel n = some i → m = n
  bound : ∀ {n i}, L.pixel n = some i → i < L.count

/-- The pixel slots of the loop variables around a place, the innermost first. -/
abbrev LoopSlots := List (String × Nat)

/-- The slot of a declared variable. -/
inductive VariableAt (D : Declared) (L : Layout) (name : String) : Slot → Prop where
  | pixel {i} : D.lookup name = some .scalar → L.pixel name = some i →
      VariableAt D L name (.pixel i)
  | image {i} : D.lookup name = some .kept → L.image[i]? = some name →
      VariableAt D L name (.image i)

/-- The number of an image among those of its role. -/
structure ImageAt (D : Declared) (role : Role) (name : String) (i : Nat) : Prop where
  declared : D.lookup name = some role
  index : (D.names role).findIdx? (· = name) = some i

structure ListAt (D : Declared) (L : Layout) (name : String) (i : Nat) : Prop where
  declared : D.lookup name = some .list
  index : L.lists[i]? = some name

section Relation

variable (D : Declared) (L : Layout)

mutual

/-- The code of an expression that stands for one value. -/
inductive Coded (ls : LoopSlots) : RasterScript.Expr → Expr → Prop where
  | number {v span} : Coded ls (.number v span) (.const v)
  | constant {id span v} : constant? id.name = some v → Coded ls (.name id span) (.const v)
  | loop {id span i} : constant? id.name = none → ls.lookup id.name = some i →
      Coded ls (.name id span) (.load (.pixel i))
  | load {id span slot} : constant? id.name = none → ls.lookup id.name = none →
      VariableAt D L id.name slot → Coded ls (.name id span) (.load slot)
  | source {id span i} : constant? id.name = none → ls.lookup id.name = none →
      ImageAt D .source id.name i → Coded ls (.name id span) (.read i none none)
  | image {id selectors span i access band point} : ls.lookup id.name = none →
      ImageAt D .source id.name i → Access.ofSelectors selectors = .ok access →
      CodedBand ls access.band band → CodedPoint ls access.position point →
      Coded ls (.image id selectors span) (.read i band point)
  | position {f args span p} : Builtin.ofName? f.name = some (.position p) →
      Coded ls (.call f args span) (.position p)
  | call {f args span g cs} : Builtin.ofName? f.name = some (.scalar g) → CodedAll ls args cs →
      Coded ls (.call f args span) (.call g cs)
  | statistic {f args span g cs} : Builtin.ofName? f.name = some (.statistic g) →
      CodedArguments ls args cs → Coded ls (.call f args span) (.statistic g cs)
  | unary {op a span c} : Coded ls a c → Coded ls (.unary op a span) (.unary op c)
  | binary {op a b span c d} : Coded ls a c → Coded ls b d →
      Coded ls (.binary op a b span) (.binary op c d)
  | cond {t y n span c d e} : Coded ls t c → Coded ls y d → Coded ls n e →
      Coded ls (.cond t y n span) (.select c d e)

inductive CodedAll (ls : LoopSlots) : List RasterScript.Expr → List Expr → Prop where
  | nil : CodedAll ls [] []
  | cons {e es c cs} : Coded ls e c → CodedAll ls es cs → CodedAll ls (e :: es) (c :: cs)

/-- The code of an expression that stands for a list. -/
inductive CodedItems (ls : LoopSlots) : RasterScript.Expr → Items Expr → Prop where
  | literal {items span cs} : CodedAll ls items cs → CodedItems ls (.list items span) (.literal cs)
  | slot {id span i} : constant? id.name = none → ls.lookup id.name = none → ListAt D L id.name i →
      CodedItems ls (.name id span) (.slot i)

/-- The code of the arguments of a statistic. -/
inductive CodedArguments (ls : LoopSlots) :
    List RasterScript.Expr → List (Argument Expr) → Prop where
  | nil : CodedArguments ls [] []
  | one {e es c cs} : Coded ls e c → CodedArguments ls es cs →
      CodedArguments ls (e :: es) (.one c :: cs)
  | many {e es c cs} : CodedItems ls e c → CodedArguments ls es cs →
      CodedArguments ls (e :: es) (.many c :: cs)

inductive CodedBand (ls : LoopSlots) : Option RasterScript.Expr → Option Expr → Prop where
  | none : CodedBand ls none none
  | some {e c} : Coded ls e c → CodedBand ls (some e) (some c)

inductive CodedPoint (ls : LoopSlots) :
    Option (Coord RasterScript.Expr × Coord RasterScript.Expr) → Option (Point Expr) → Prop where
  | none : CodedPoint ls none none
  | some {x y c d} : Coded ls x.value c → Coded ls y.value d →
      CodedPoint ls (some (x, y)) (some ⟨⟨x.relative, c⟩, ⟨y.relative, d⟩⟩)

end

/-- What an assignment stores. -/
def stored (op : AssignOp) (slot : Slot) (value : Expr) : Expr :=
  match op.binary? with
  | none => value
  | some op => .binary op (.load slot) value

/-- The code of an assignment. -/
inductive CodedAssign (ls : LoopSlots) (target : Ident) :
    AssignOp → RasterScript.Expr → Stmt → Prop where
  | store {op value slot c} : VariableAt D L target.name slot → Coded D L ls value c →
      CodedAssign ls target op value (.store slot (stored op slot c))
  | storeList {value i c} : ListAt D L target.name i → CodedItems D L ls value c →
      CodedAssign ls target .set value (.storeList i c)
  | write {value i c} : ImageAt D .destination target.name i → Coded D L ls value c →
      CodedAssign ls target .set value (.write i c)

/-- A slot for a loop variable that no variable around it uses. -/
structure Fresh (ls : LoopSlots) (i : Nat) : Prop where
  lt : i < L.count
  pixel : ∀ n, L.pixel n ≠ some i
  loops : ∀ p ∈ ls, p.2 ≠ i

mutual

/-- The code of a statement. -/
inductive CodedStmt : LoopSlots → RasterScript.Stmt → List Stmt → Prop where
  | assign {ls target op value span c} : constant? target.name = none →
      ls.lookup target.name = none → CodedAssign D L ls target op value c →
      CodedStmt ls (.assign target op value span) [c]
  | cond {ls test yes no span c cs ds} : Coded D L ls test c → CodedStmt ls yes cs →
      CodedElse ls no ds → CodedStmt ls (.cond test yes no span) [.cond c cs ds]
  | loop {ls kind test body span c cs} : Coded D L ls test c → CodedStmt ls body cs →
      CodedStmt ls (.loop kind test body span) [.loop kind c cs]
  | foreachItem {ls var items body span i c cs} : Fresh L ls i → CodedItems D L ls items c →
      CodedStmt ((var.name, i) :: ls) body cs →
      CodedStmt ls (.foreach var (.list items) body span) [.foreachItem (.pixel i) c cs]
  | foreachInt {ls var low high body span i c d cs} : Fresh L ls i → Coded D L ls low c →
      Coded D L ls high d → CodedStmt ((var.name, i) :: ls) body cs →
      CodedStmt ls (.foreach var (.range low high) body span) [.foreachInt (.pixel i) c d cs]
  | block {ls body span cs} : CodedStmts ls body cs → CodedStmt ls (.block body span) cs
  | breakIf {ls test span c} : Coded D L ls test c → CodedStmt ls (.breakIf test span) [.breakIf c]
  | leave {ls span} : CodedStmt ls (.leave span) [.leave]

inductive CodedElse : LoopSlots → Option RasterScript.Stmt → List Stmt → Prop where
  | none {ls} : CodedElse ls none []
  | some {ls s cs} : CodedStmt ls s cs → CodedElse ls (some s) cs

inductive CodedStmts : LoopSlots → List RasterScript.Stmt → List Stmt → Prop where
  | nil {ls} : CodedStmts ls [] []
  | cons {ls s ss cs ds} : CodedStmt ls s cs → CodedStmts ls ss ds →
      CodedStmts ls (s :: ss) (cs ++ ds)

end

/-- The code of the entries of an `init` block. -/
inductive CodedValues : List NamedValue → List Stmt → Prop where
  | nil : CodedValues [] []
  | cons {v vs i c cs} : constant? v.ident.name = none → D.lookup v.ident.name = some .kept →
      L.image[i]? = some v.ident.name → Coded D L [] v.value c → CodedValues vs cs →
      CodedValues (v :: vs) (.store (.image i) c :: cs)

/-- The code of all `init` blocks. -/
inductive CodedInit : List Item → List Stmt → Prop where
  | nil : CodedInit [] []
  | init {values span items cs ds} : CodedValues D L values cs → CodedInit items ds →
      CodedInit (.init values span :: items) (cs ++ ds)
  | images {decls span items cs} : CodedInit items cs → CodedInit (.images decls span :: items) cs
  | options {values span items cs} : CodedInit items cs →
      CodedInit (.options values span :: items) cs
  | stmt {s items cs} : CodedInit items cs → CodedInit (.stmt s :: items) cs

/-- The code of all statements. -/
inductive CodedBody : List Item → List Stmt → Prop where
  | nil : CodedBody [] []
  | stmt {s items cs ds} : CodedStmt D L [] s cs → CodedBody items ds →
      CodedBody (.stmt s :: items) (cs ++ ds)
  | images {decls span items cs} : CodedBody items cs → CodedBody (.images decls span :: items) cs
  | options {values span items cs} : CodedBody items cs →
      CodedBody (.options values span :: items) cs
  | init {values span items cs} : CodedBody items cs → CodedBody (.init values span :: items) cs

/-- The code of a whole script. -/
structure CodeOf (script : Script) (code : Code) : Prop where
  separate : L.Separate
  sources : code.sources = D.names .source
  destinations : code.destinations = D.names .destination
  imageSlots : code.imageSlots = L.image
  pixelSlots : code.pixelSlots.length = L.count
  listSlots : code.listSlots = L.lists
  init : CodedInit D L script.items code.init
  body : CodedBody D L script.items code.body

end Relation

end Code

end RasterScript
