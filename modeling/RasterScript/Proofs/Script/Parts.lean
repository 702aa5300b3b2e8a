import RasterScript.Proofs.Script.Uses
import RasterScript.Proofs.Token.Lexemes

/-! A script as a tree of places, and when such a tree fits its text: every part covers whole
characters, encloses its own parts, and these follow each other. Trees that are laid out on the
tokens of a text do. -/
namespace RasterScript

/-! ### Stretches of a text -/

namespace Span

/-- The text of a span. Both ends stand between characters. -/
def Spells (span : Span) (text w : String) : Prop :=
  ∃ before after : String, text = before ++ w ++ after ∧
    span = ⟨before.utf8ByteSize, before.utf8ByteSize + w.utf8ByteSize⟩

/-- One span lies inside another. -/
def Encloses (a b : Span) : Prop := a.start ≤ b.start ∧ b.stop ≤ a.stop

theorem Encloses.trans {a b c : Span} (hab : a.Encloses b) (hbc : b.Encloses c) : a.Encloses c :=
  ⟨Nat.le_trans hab.1 hbc.1, Nat.le_trans hbc.2 hab.2⟩

end Span

open Text (Boundary)

section Stretches

variable {text w : String} {span : Span} {a b : Nat}

theorem Span.Spells.boundaries (h : span.Spells text w) :
    Boundary text span.start ∧ Boundary text span.stop := by
  obtain ⟨before, after, rfl, rfl⟩ := h
  refine ⟨⟨before, w ++ after, String.append_assoc, rfl⟩, before ++ w, after, rfl, ?_⟩
  exact (String.utf8ByteSize_append ..).symm

theorem Span.Spells.start_le (h : span.Spells text w) : span.start ≤ span.stop := by
  obtain ⟨before, after, -, rfl⟩ := h
  exact Nat.le_add_right ..

theorem Span.Spells.start_lt (h : span.Spells text w) (hw : w ≠ "") : span.start < span.stop := by
  obtain ⟨before, after, -, rfl⟩ := h
  exact Nat.lt_add_of_pos_right (Nat.pos_of_ne_zero fun hzero =>
    hw (String.utf8ByteSize_eq_zero_iff.mp hzero))

theorem Span.Spells.ne_empty (h : span.Spells text w) (hlt : span.start < span.stop) : w ≠ "" := by
  rintro rfl
  obtain ⟨before, after, -, rfl⟩ := h
  exact Nat.lt_irrefl _ hlt

/-- Between two boundaries there are whole characters. -/
theorem Text.Boundary.spells (ha : Boundary text a) (hb : Boundary text b) (hab : a ≤ b) :
    ∃ w, Span.Spells ⟨a, b⟩ text w := by
  obtain ⟨before, rest, htext, rfl⟩ := ha
  obtain ⟨upto, after, htext', rfl⟩ := hb
  have hlists : before.toList ++ rest.toList = upto.toList ++ after.toList := by
    rw [← String.toList_append, ← String.toList_append, ← htext, ← htext']
  rcases List.append_eq_append_iff.mp hlists with ⟨w, hupto, hrest⟩ | ⟨w, hbefore, -⟩
  · have hupto : upto = before ++ String.ofList w := by
      rw [← String.toList_inj, String.toList_append, String.toList_ofList, hupto]
    refine ⟨String.ofList w, before, after, hupto ▸ htext', ?_⟩
    rw [hupto, String.utf8ByteSize_append]
  · have hbefore : before = upto ++ String.ofList w := by
      rw [← String.toList_inj, String.toList_append, String.toList_ofList, hbefore]
    rw [hbefore, String.utf8ByteSize_append] at hab
    obtain hw : String.ofList w = "" := String.utf8ByteSize_eq_zero_iff.mp (by omega)
    rw [hw, String.append_empty] at hbefore
    subst hbefore
    refine ⟨"", before, rest, ?_, rfl⟩
    rw [String.append_empty]
    exact htext

end Stretches

/-! ### Trees of places -/

/-- A name of a script, or a node with its own parts in the order of the text. -/
inductive Part where
  | name (ident : Ident)
  | node (span : Span) (parts : List Part)

namespace Part

def span : Part → Span
  | .name id => id.span
  | .node s _ => s

def parts : Part → List Part
  | .name _ => []
  | .node _ ps => ps

def ident? : Part → Option Ident
  | .name id => some id
  | .node _ _ => none

mutual

/-- A part and all parts inside it. -/
def all : Part → List Part
  | .name id => [.name id]
  | .node s ps => .node s ps :: allOf ps

def allOf : List Part → List Part
  | [] => []
  | p :: ps => p.all ++ allOf ps

end

/-- The names of parts and of all parts inside them. -/
def identsOf (ps : List Part) : List Ident := (allOf ps).filterMap ident?

theorem mem_allOf {q : Part} {ps : List Part} : q ∈ allOf ps ↔ ∃ p ∈ ps, q ∈ p.all := by
  induction ps with
  | nil => simp [allOf]
  | cons p ps ih => simp [allOf, ih]

end Part

mutual

/-- The parts of an expression. -/
def Expr.parts : Expr → List Part
  | .number _ _ => []
  | .name id _ => [.name id]
  | .call f args _ => .name f :: exprsParts args
  | .image id selectors _ => .name id :: groupsParts selectors
  | .list items _ => exprsParts items
  | .unary _ a _ => [.node a.span a.parts]
  | .binary _ a b _ => [.node a.span a.parts, .node b.span b.parts]
  | .cond t a b _ => [.node t.span t.parts, .node a.span a.parts, .node b.span b.parts]

def exprsParts : List Expr → List Part
  | [] => []
  | e :: es => .node e.span e.parts :: exprsParts es

def groupsParts : List (Selector Expr) → List Part
  | [] => []
  | s :: ss => groupPart s :: groupsParts ss

def groupPart : Selector Expr → Part
  | ⟨cs, span⟩ => .node span (coordsParts cs)

def coordsParts : List (Coord Expr) → List Part
  | [] => []
  | c :: cs => coordPart c :: coordsParts cs

def coordPart : Coord Expr → Part
  | ⟨_, value, span⟩ => .node span [.node value.span value.parts]

end

def Expr.part (e : Expr) : Part := .node e.span e.parts

def Source.parts : Source → List Part
  | .list items => [items.part]
  | .range low high => [low.part, high.part]

mutual

/-- The parts of a statement. -/
def Stmt.parts : Stmt → List Part
  | .assign target _ value _ => [.name target, value.part]
  | .cond test yes no _ => test.part :: .node yes.span yes.parts :: elseParts no
  | .loop _ test body _ => [test.part, .node body.span body.parts]
  | .foreach var source body _ => .name var :: (source.parts ++ [.node body.span body.parts])
  | .block body _ => stmtsParts body
  | .breakIf test _ => [test.part]
  | .leave _ => []

def elseParts : Option Stmt → List Part
  | none => []
  | some s => [.node s.span s.parts]

def stmtsParts : List Stmt → List Part
  | [] => []
  | s :: ss => .node s.span s.parts :: stmtsParts ss

end

def Stmt.part (s : Stmt) : Part := .node s.span s.parts

def ImageDecl.part (d : ImageDecl) : Part := .node d.span [.name d.ident]

/-- A named value has no place of its own. -/
def NamedValue.parts (v : NamedValue) : List Part := [.name v.ident, v.value.part]

def Item.part : Item → Part
  | .images decls span => .node span (decls.map ImageDecl.part)
  | .init values span | .options values span => .node span (values.flatMap NamedValue.parts)
  | .stmt s => s.part

def Script.parts (script : Script) : List Part := script.items.map Item.part

theorem Expr.part_withSpan (e : Expr) (s : Span) : (e.withSpan s).part = .node s e.parts := by
  cases e <;> rfl

/-! ### What holds at all places -/

namespace Part

/-- A property of the places of parts and of all parts inside them. -/
def Held (P : Span → Prop) (ps : List Part) : Prop := ∀ q ∈ allOf ps, P q.span

section Held

variable {α : Type} {P : Span → Prop} {id : Ident} {span : Span} {p : Part} {ps qs : List Part}

theorem held_name : Held P (.name id :: ps) ↔ P id.span ∧ Held P ps := by
  rw [Held, allOf]
  exact List.forall_mem_cons

theorem held_node : Held P (.node span ps :: qs) ↔ P span ∧ Held P ps ∧ Held P qs := by
  rw [Held, allOf, all, List.cons_append, List.forall_mem_cons, List.forall_mem_append]
  rfl

theorem held_append : Held P (ps ++ qs) ↔ Held P ps ∧ Held P qs := by
  simp only [Held, mem_allOf, List.mem_append]
  grind

theorem Held.subset (h : Held P ps) (hsub : qs ⊆ ps) : Held P qs := by
  intro q hq
  obtain ⟨p, hp, hq⟩ := mem_allOf.mp hq
  exact h q (mem_allOf.mpr ⟨p, hsub hp, hq⟩)

theorem Held.of_mem (h : Held P ps) (hp : p ∈ ps) : Held P [p] :=
  h.subset (List.cons_subset.mpr ⟨hp, List.nil_subset ps⟩)

theorem Held.of_mem_flatMap {f : α → List Part} {l : List α} {a : α} (h : Held P (l.flatMap f))
    (ha : a ∈ l) : Held P (f a) :=
  h.subset fun _ hp => List.mem_flatMap.mpr ⟨a, ha, hp⟩

/-- The groups after an image stand at places of its parts, and so do their coordinates. -/
theorem held_selectors : ∀ {ss : List (Selector Expr)}, Held P (groupsParts ss) →
    ∀ s ∈ ss, P s.span ∧ ∀ c ∈ s.coords, P c.span := by
  have hcoords : ∀ {cs : List (Coord Expr)}, Held P (coordsParts cs) → ∀ c ∈ cs, P c.span := by
    intro cs h
    induction cs with
    | nil => exact List.forall_mem_nil _
    | cons c cs ih =>
      obtain ⟨relative, value, span⟩ := c
      obtain ⟨hc, -, hcs⟩ := held_node.mp h
      exact List.forall_mem_cons.mpr ⟨hc, ih hcs⟩
  intro ss h
  induction ss with
  | nil => exact List.forall_mem_nil _
  | cons s ss ih =>
    obtain ⟨cs, span⟩ := s
    obtain ⟨hs, hin, hss⟩ := held_node.mp h
    exact List.forall_mem_cons.mpr ⟨⟨hs, hcoords hin⟩, ih hss⟩

end Held

end Part

/-! ### Names -/

namespace Part

/-- The places of the names of parts and of all parts inside them. -/
def places (ps : List Part) : List Span := (identsOf ps).map Ident.span

variable {id : Ident} {span : Span} {ps qs : List Part}

@[simp]
theorem places_nil : places [] = [] := rfl

@[simp]
theorem places_name : places (.name id :: ps) = id.span :: places ps := by
  rw [places, identsOf, allOf, all]
  rfl

@[simp]
theorem places_node : places (.node span ps :: qs) = places ps ++ places qs := by
  rw [places, identsOf, allOf, all, List.cons_append, List.filterMap_cons_none rfl,
    List.filterMap_append, List.map_append]
  rfl

@[simp]
theorem places_append : places (ps ++ qs) = places ps ++ places qs := by
  induction ps with
  | nil => rfl
  | cons p ps ih => cases p <;> simp [ih]

end Part

open RasterScript.Part (places)

mutual

/-- The tree of an expression has its names, in their order. -/
theorem Expr.places_parts : ∀ e : Expr, places e.parts = e.names
  | .number _ _ => by simp [Expr.parts, Expr.names]
  | .name _ _ => by simp [Expr.parts, Expr.names]
  | .call _ args _ => by simp [Expr.parts, Expr.names, places_exprsParts args]
  | .image _ selectors _ => by simp [Expr.parts, Expr.names, places_groupsParts selectors]
  | .list items _ => by simp [Expr.parts, Expr.names, places_exprsParts items]
  | .unary _ a _ => by simp [Expr.parts, Expr.names, a.places_parts]
  | .binary _ a b _ => by simp [Expr.parts, Expr.names, a.places_parts, b.places_parts]
  | .cond t a b _ => by
    simp [Expr.parts, Expr.names, t.places_parts, a.places_parts, b.places_parts]

private theorem places_exprsParts : ∀ es : List Expr, places (exprsParts es) = exprsNames es
  | [] => by simp [exprsParts, exprsNames]
  | e :: es => by simp [exprsParts, exprsNames, e.places_parts, places_exprsParts es]

private theorem places_groupsParts : ∀ ss : List (Selector Expr),
    places (groupsParts ss) = groupsNames ss
  | [] => by simp [groupsParts, groupsNames]
  | ⟨cs, _⟩ :: ss => by
    simp [groupsParts, groupPart, groupsNames, groupNames, places_coordsParts cs,
      places_groupsParts ss]

private theorem places_coordsParts :
    ∀ cs : List (Coord Expr), places (coordsParts cs) = coordsNames cs
  | [] => by simp [coordsParts, coordsNames]
  | ⟨_, value, _⟩ :: cs => by
    simp [coordsParts, coordPart, coordsNames, coordNames, value.places_parts,
      places_coordsParts cs]

end

theorem Source.places_parts (s : Source) : places s.parts = s.names := by
  cases s <;> simp [Source.parts, Source.names, Expr.part, Expr.places_parts]

mutual

theorem Stmt.places_parts : ∀ s : Stmt, places s.parts = s.names
  | .assign _ _ value _ => by simp [Stmt.parts, Stmt.names, Expr.part, value.places_parts]
  | .cond test yes no _ => by
    simp [Stmt.parts, Stmt.names, Expr.part, test.places_parts, yes.places_parts,
      places_elseParts no]
  | .loop _ test body _ => by
    simp [Stmt.parts, Stmt.names, Expr.part, test.places_parts, body.places_parts]
  | .foreach _ source body _ => by
    simp [Stmt.parts, Stmt.names, source.places_parts, body.places_parts]
  | .block body _ => by simp [Stmt.parts, Stmt.names, places_stmtsParts body]
  | .breakIf test _ => by simp [Stmt.parts, Stmt.names, Expr.part, test.places_parts]
  | .leave _ => by simp [Stmt.parts, Stmt.names]

private theorem places_elseParts : ∀ s : Option Stmt, places (elseParts s) = elseNames s
  | none => by simp [elseParts, elseNames]
  | some s => by simp [elseParts, elseNames, s.places_parts]

private theorem places_stmtsParts : ∀ ss : List Stmt, places (stmtsParts ss) = stmtsNames ss
  | [] => by simp [stmtsParts, stmtsNames]
  | s :: ss => by simp [stmtsParts, stmtsNames, s.places_parts, places_stmtsParts ss]

end

private theorem places_values (values : List NamedValue) :
    places (values.flatMap NamedValue.parts) = values.flatMap NamedValue.names := by
  induction values with
  | nil => rfl
  | cons v values ih =>
    simp [NamedValue.parts, NamedValue.names, Expr.part, Expr.places_parts, ih]

private theorem places_decls (decls : List ImageDecl) :
    places (decls.map ImageDecl.part) = decls.map (·.ident.span) := by
  induction decls with
  | nil => rfl
  | cons d decls ih => simp [ImageDecl.part, ih]

/-- The tree of a script has its names, in their order. -/
theorem Script.places_parts (script : Script) : places script.parts = script.names := by
  rw [Script.parts, Script.names]
  induction script.items with
  | nil => rfl
  | cons i items ih =>
    cases i <;>
      simp [Item.part, Item.names, Stmt.part, Stmt.places_parts, places_values, places_decls, ih]

/-! ### Trees that fit a text -/

namespace Part

/-- Every part covers whole characters and encloses its own parts, which follow each other; a name
is spelled by the text. -/
inductive Fits (text : String) : Part → Prop where
  | name {id} : id.name ≠ "" → id.span.Spells text id.name → Fits text (.name id)
  | node {span ps w} : w ≠ "" → span.Spells text w → (∀ p ∈ ps, Fits text p) →
      (∀ p ∈ ps, span.Encloses p.span) → (ps.map Part.span).Pairwise Span.Precedes →
      Fits text (.node span ps)

section Fits

variable {text : String} {p q : Part}

theorem Fits.spells (h : Fits text p) : ∃ w, w ≠ "" ∧ p.span.Spells text w := by
  cases h with
  | name hne hspells => exact ⟨_, hne, hspells⟩
  | node hne hspells _ _ _ => exact ⟨_, hne, hspells⟩

theorem Fits.parts_ordered (h : Fits text p) :
    (p.parts.map Part.span).Pairwise Span.Precedes := by
  cases h with
  | name _ _ => exact .nil
  | node _ _ _ _ hordered => exact hordered

theorem Fits.ident {id : Ident} (h : Fits text p) (hid : p.ident? = some id) :
    id.span.Spells text id.name := by
  cases h with
  | name _ hspells =>
    cases hid
    exact hspells
  | node _ _ _ _ _ => cases hid

/-- What holds of a tree holds of every part inside it, and the tree encloses it. -/
theorem Fits.inside (h : Fits text p) (hq : q ∈ p.all) : Fits text q ∧ p.span.Encloses q.span := by
  induction h with
  | name hne hspells =>
    obtain rfl := List.mem_singleton.mp hq
    exact ⟨.name hne hspells, Nat.le_refl _, Nat.le_refl _⟩
  | node hne hspells hparts hencloses hordered ih =>
    rcases List.mem_cons.mp hq with rfl | hq
    · exact ⟨.node hne hspells hparts hencloses hordered, Nat.le_refl _, Nat.le_refl _⟩
    · obtain ⟨p, hp, hq⟩ := mem_allOf.mp hq
      obtain ⟨hfits, hinside⟩ := ih p hp hq
      exact ⟨hfits, (hencloses p hp).trans hinside⟩

end Fits

end Part

/-! ### Trees on tokens -/

/-- Tokens that stand in a text one after the other. Only a line end may stand for nothing. -/
structure Token.Row (text : String) (ts : List Token) : Prop where
  ordered : ts.Pairwise fun s t => s.span.stop ≤ t.span.start
  spells : ∀ t ∈ ts, t.span.Spells text t.text
  nonempty : ∀ t ∈ ts, ¬t.isTerminator → t.text ≠ ""

namespace Token.Row

variable {text : String} {ts xs : List Token}

theorem sublist (h : Row text xs) (hsub : ts.Sublist xs) : Row text ts where
  ordered := h.ordered.sublist hsub
  spells t ht := h.spells t (hsub.subset ht)
  nonempty t ht := h.nonempty t (hsub.subset ht)

theorem left (h : Row text (ts ++ xs)) : Row text ts := h.sublist (List.sublist_append_left ..)

theorem right (ts : List Token) (h : Row text (ts ++ xs)) : Row text xs :=
  h.sublist (List.sublist_append_right ..)

theorem tail {t : Token} (h : Row text (t :: ts)) : Row text ts := h.right [t]

end Token.Row

namespace Part

/-- The first of some tokens starts where a span does, and ends no statement. -/
def Opens (ts : List Token) (span : Span) : Prop :=
  ∃ t rest, ts = t :: rest ∧ ¬t.isTerminator ∧ t.span.start = span.start

/-- The last of some tokens stops where a span does. -/
def Closes (ts : List Token) (span : Span) : Prop :=
  ∃ before t, ts = before ++ [t] ∧ t.span.stop = span.stop

mutual

/-- A part that is made of the given tokens, from the first to the last. -/
inductive Laid : List Token → Part → Prop where
  | name {t} : t.kind = .ident → Laid [t] (.name ⟨t.text, t.span⟩)
  | node {ts span ps} : Opens ts span → Closes ts span → LaidAll ts ps → Laid ts (.node span ps)

/-- Parts that are made of some of the given tokens, in their order. -/
inductive LaidAll : List Token → List Part → Prop where
  | nil : LaidAll [] []
  | skip {t ts ps} : LaidAll ts ps → LaidAll (t :: ts) ps
  | part {ts xs p ps} : Laid ts p → LaidAll xs ps → LaidAll (ts ++ xs) (p :: ps)

end

section Laid

variable {text : String} {ts xs : List Token} {p : Part} {span other : Span}

theorem Opens.append (h : Opens ts span) (xs : List Token) : Opens (ts ++ xs) span := by
  obtain ⟨t, rest, rfl, ht, hstart⟩ := h
  exact ⟨t, rest ++ xs, rfl, ht, hstart⟩

theorem Closes.append (h : Closes xs span) (ts : List Token) : Closes (ts ++ xs) span := by
  obtain ⟨before, t, rfl, hstop⟩ := h
  exact ⟨ts ++ before, t, (List.append_assoc ..).symm, hstop⟩

theorem Laid.opens (h : Laid ts p) : Opens ts p.span := by
  cases h with
  | @name t ht => exact ⟨t, [], rfl, by simp [Token.isTerminator, ht, Token.Kind.isTerminator], rfl⟩
  | node hopens _ _ => exact hopens

theorem Laid.closes (h : Laid ts p) : Closes ts p.span := by
  cases h with
  | @name t _ => exact ⟨[], t, rfl, rfl⟩
  | node _ hcloses _ => exact hcloses

/-- Some of the tokens start and stop where a span does. -/
def Within (ts : List Token) (span : Span) : Prop :=
  (∃ t ∈ ts, t.span.start = span.start) ∧ ∃ t ∈ ts, t.span.stop = span.stop

theorem Laid.within (h : Laid ts p) : Within ts p.span := by
  obtain ⟨t, rest, hts, -, hstart⟩ := h.opens
  obtain ⟨before, last, hts', hstop⟩ := h.closes
  refine ⟨⟨t, hts ▸ List.mem_cons_self, hstart⟩, last, ?_, hstop⟩
  rw [hts']
  exact List.mem_append_right _ (List.mem_singleton_self last)

theorem Within.subset (h : Within ts span) (hsub : ts ⊆ xs) : Within xs span := by
  obtain ⟨⟨t, ht, hstart⟩, last, hlast, hstop⟩ := h
  exact ⟨⟨t, hsub ht, hstart⟩, last, hsub hlast, hstop⟩

/-- What is made of earlier tokens comes before what is made of later ones. -/
theorem Within.precedes (h : Within ts span) (h' : Within xs other)
    (hrow : Token.Row text (ts ++ xs)) : span.Precedes other := by
  obtain ⟨-, last, hlast, hstop⟩ := h
  obtain ⟨⟨t, ht, hstart⟩, -⟩ := h'
  have hbetween := (List.pairwise_append.mp hrow.ordered).2.2 last hlast t ht
  rwa [hstop, hstart] at hbetween

/-- Nothing that is made of the tokens starts before the first of them. -/
theorem Opens.le (hrow : Token.Row text ts) (hopens : Opens ts span) (h : Within ts other) :
    span.start ≤ other.start := by
  obtain ⟨first, rest, rfl, -, hfirst⟩ := hopens
  obtain ⟨⟨t, ht, hstart⟩, -⟩ := h
  rw [← hfirst, ← hstart]
  rcases List.mem_cons.mp ht with rfl | ht
  · exact Nat.le_refl _
  · have hle := (hrow.spells first List.mem_cons_self).start_le
    exact Nat.le_trans hle (List.rel_of_pairwise_cons hrow.ordered ht)

/-- Nothing that is made of the tokens stops after the last of them. -/
theorem Closes.le (hrow : Token.Row text ts) (hcloses : Closes ts span) (h : Within ts other) :
    other.stop ≤ span.stop := by
  obtain ⟨before, last, rfl, hlast⟩ := hcloses
  obtain ⟨-, t, ht, hstop⟩ := h
  rw [← hlast, ← hstop]
  rcases List.mem_append.mp ht with ht | ht
  · have hle := (hrow.spells last (List.mem_append_right _ (List.mem_singleton_self _))).start_le
    refine Nat.le_trans ?_ hle
    exact (List.pairwise_append.mp hrow.ordered).2.2 t ht last (List.mem_singleton_self _)
  · rw [List.mem_singleton.mp ht]

/-- A span from the first token to the last encloses what is made of tokens between them. -/
theorem encloses_of_within (hrow : Token.Row text ts) (hopens : Opens ts span)
    (hcloses : Closes ts span) (h : Within ts other) : span.Encloses other :=
  ⟨hopens.le hrow h, hcloses.le hrow h⟩

/-- A span from the first token to the last covers whole characters, and not none. -/
theorem spells_of_ends (hrow : Token.Row text ts) (hopens : Opens ts span)
    (hcloses : Closes ts span) : ∃ w, w ≠ "" ∧ span.Spells text w := by
  obtain ⟨first, rest, hts, hterminator, hstart⟩ := hopens
  have hmem : first ∈ ts := hts ▸ List.mem_cons_self
  have hfirst := hrow.spells first hmem
  have hlt : first.span.start < first.span.stop :=
    hfirst.start_lt (hrow.nonempty first hmem hterminator)
  have hinside : span.Encloses first.span := by
    refine encloses_of_within hrow ⟨first, rest, hts, hterminator, hstart⟩ hcloses ?_
    exact ⟨⟨first, hmem, rfl⟩, first, hmem, rfl⟩
  obtain ⟨before, last, hts', hstop⟩ := hcloses
  have hlast := hrow.spells last (hts' ▸ List.mem_append_right _ (List.mem_singleton_self _))
  have hnonempty : span.start < span.stop :=
    Nat.lt_of_le_of_lt hinside.1 (Nat.lt_of_lt_of_le hlt hinside.2)
  obtain ⟨w, hw⟩ := (hstart ▸ hfirst.boundaries.1).spells (hstop ▸ hlast.boundaries.2)
    (Nat.le_of_lt hnonempty)
  exact ⟨w, hw.ne_empty hnonempty, hw⟩

mutual

/-- A tree that is made of tokens of a text fits the text. -/
theorem Laid.fits : ∀ {ts p}, Laid ts p → Token.Row text ts → Fits text p
  | _, _, .name ht, hrow => by
    refine .name (hrow.nonempty _ List.mem_cons_self ?_) (hrow.spells _ List.mem_cons_self)
    simp [Token.isTerminator, ht, Token.Kind.isTerminator]
  | _, _, .node hopens hcloses hparts, hrow => by
    obtain ⟨w, hw, hspells⟩ := spells_of_ends hrow hopens hcloses
    obtain ⟨hfits, hordered, hwithin⟩ := hparts.fits hrow
    exact .node hw hspells hfits
      (fun p hp => encloses_of_within hrow hopens hcloses (hwithin p hp)) hordered

theorem LaidAll.fits : ∀ {ts ps}, LaidAll ts ps → Token.Row text ts →
    (∀ p ∈ ps, Fits text p) ∧ (ps.map Part.span).Pairwise Span.Precedes ∧
      ∀ p ∈ ps, Within ts p.span
  | _, _, .nil, _ => ⟨List.forall_mem_nil _, .nil, List.forall_mem_nil _⟩
  | _, _, .skip hps, hrow => by
    obtain ⟨hfits, hordered, hwithin⟩ := hps.fits (hrow.right [_])
    exact ⟨hfits, hordered, fun p hp => (hwithin p hp).subset (List.subset_cons_self _ _)⟩
  | _, _, .part hp hps, hrow => by
    obtain ⟨hfits, hordered, hwithin⟩ := hps.fits (hrow.right _)
    refine ⟨List.forall_mem_cons.mpr ⟨hp.fits hrow.left, hfits⟩, ?_, ?_⟩
    · refine List.pairwise_cons.mpr ⟨?_, hordered⟩
      intro span hspan
      obtain ⟨q, hq, rfl⟩ := List.mem_map.mp hspan
      exact hp.within.precedes (hwithin q hq) hrow
    · refine List.forall_mem_cons.mpr ⟨hp.within.subset (List.subset_append_left _ _), ?_⟩
      exact fun q hq => (hwithin q hq).subset (List.subset_append_right _ _)

end

end Laid

end Part

end RasterScript
