import RasterScript.Proofs.Script.Names

/-! What a script does where: the names, images and functions that it mentions, its targets and its
breaks, each with the loops around it. -/
namespace RasterScript

/-- Where in a script something stands. -/
structure Site where
  /-- The variables of the `foreach` statements around it, the innermost first. -/
  loops : List Ident
  /-- Whether it stands in the body of a loop. -/
  inLoop : Bool
  /-- Whether it stands in an `init` block. -/
  inInit : Bool
deriving DecidableEq, Repr

/-- Something that an expression mentions. -/
inductive Mention where
  | name (id : Ident)
  | image (id : Ident)
  | call (f : Ident)
deriving DecidableEq, Repr

namespace Mention

def ident : Mention → Ident
  | .name id | .image id | .call id => id

/-- The place of a mention in the text. -/
def place (m : Mention) : Span := m.ident.span

end Mention

/-- Something that a script does at a site: it mentions something, assigns, or leaves a loop. -/
inductive Use where
  | mention (m : Mention)
  | target (id : Ident)
  | leave
deriving DecidableEq, Repr

/-- The name in expression position that a use is, bare or before bracketed groups, if it is one. -/
def Use.occurrence? : Use → Option Mention
  | .mention (.name id) => some (.name id)
  | .mention (.image id) => some (.image id)
  | _ => none

mutual

/-- What an expression mentions, in the order of the text. -/
def Expr.mentions : Expr → List Mention
  | .number _ _ => []
  | .name id _ => [.name id]
  | .call f args _ => .call f :: exprsMentions args
  | .image id selectors _ => .image id :: groupsMentions selectors
  | .list items _ => exprsMentions items
  | .unary _ a _ => a.mentions
  | .binary _ a b _ => a.mentions ++ b.mentions
  | .cond t a b _ => t.mentions ++ (a.mentions ++ b.mentions)

def exprsMentions : List Expr → List Mention
  | [] => []
  | e :: es => e.mentions ++ exprsMentions es

def groupsMentions : List (Selector Expr) → List Mention
  | [] => []
  | s :: ss => groupMentions s ++ groupsMentions ss

def groupMentions : Selector Expr → List Mention
  | ⟨cs, _⟩ => coordsMentions cs

def coordsMentions : List (Coord Expr) → List Mention
  | [] => []
  | c :: cs => coordMentions c ++ coordsMentions cs

def coordMentions : Coord Expr → List Mention
  | ⟨_, value, _⟩ => value.mentions

end

def Source.mentions : Source → List Mention
  | .list items => items.mentions
  | .range low high => low.mentions ++ high.mentions

/-- The mentions of an expression at a site. -/
def Site.all (site : Site) (ms : List Mention) : List (Site × Use) := ms.map (site, .mention ·)

/-- The site in the body of a loop. -/
def Site.body (site : Site) : Site := { site with inLoop := true }

/-- The site in the body of a `foreach`. -/
def Site.within (site : Site) (var : Ident) : Site :=
  { site.body with loops := var :: site.loops }

mutual

/-- What a statement does, and where. -/
def Stmt.uses (site : Site) : Stmt → List (Site × Use)
  | .assign target _ value _ => (site, .target target) :: site.all value.mentions
  | .cond test yes no _ => site.all test.mentions ++ (yes.uses site ++ elseUses site no)
  | .loop _ test body _ => site.all test.mentions ++ body.uses site.body
  | .foreach var source body _ => site.all source.mentions ++ body.uses (site.within var)
  | .block body _ => stmtsUses site body
  | .breakIf test _ => (site, .leave) :: site.all test.mentions
  | .leave _ => [(site, .leave)]

def elseUses (site : Site) : Option Stmt → List (Site × Use)
  | none => []
  | some s => s.uses site

def stmtsUses (site : Site) : List Stmt → List (Site × Use)
  | [] => []
  | s :: ss => s.uses site ++ stmtsUses site ss

end

/-- At the top of a script. -/
def Site.top : Site := ⟨[], false, false⟩

/-- In an `init` block. -/
def Site.init : Site := ⟨[], false, true⟩

/-- What an item does in its expressions and statements. -/
def Item.uses : Item → List (Site × Use)
  | .images _ _ => []
  | .init values _ => values.flatMap fun v => Site.init.all v.value.mentions
  | .options values _ => values.flatMap fun v => Site.top.all v.value.mentions
  | .stmt s => s.uses .top

def Script.uses (script : Script) : List (Site × Use) := script.items.flatMap Item.uses

/-- The names in expression position, each with the variables of the `foreach` statements in whose
bodies it lies, the innermost first. -/
def Script.occurrences (script : Script) : List (List Ident × Mention) :=
  script.uses.filterMap fun (site, u) => u.occurrence?.map (site.loops, ·)

/-! ### Mentions and names -/

mutual

theorem Expr.place_mentions : ∀ e : Expr, e.mentions.map Mention.place = e.names
  | .number _ _ => rfl
  | .name _ _ => rfl
  | .call f args _ => congrArg (f.span :: ·) (place_exprsMentions args)
  | .image id selectors _ => congrArg (id.span :: ·) (place_groupsMentions selectors)
  | .list items _ => place_exprsMentions items
  | .unary _ a _ => a.place_mentions
  | .binary _ a b _ => by
    rw [Expr.mentions, List.map_append, a.place_mentions, b.place_mentions, Expr.names]
  | .cond t a b _ => by
    rw [Expr.mentions, List.map_append, List.map_append, t.place_mentions,
      a.place_mentions, b.place_mentions, Expr.names]

private theorem place_exprsMentions : ∀ es : List Expr,
    (exprsMentions es).map Mention.place = exprsNames es
  | [] => rfl
  | e :: es => by
    rw [exprsMentions, List.map_append, e.place_mentions, place_exprsMentions es, exprsNames]

private theorem place_groupsMentions : ∀ ss : List (Selector Expr),
    (groupsMentions ss).map Mention.place = groupsNames ss
  | [] => rfl
  | s :: ss => by
    rw [groupsMentions, List.map_append, place_groupMentions s, place_groupsMentions ss,
      groupsNames]

private theorem place_groupMentions : ∀ s : Selector Expr,
    (groupMentions s).map Mention.place = groupNames s
  | ⟨cs, _⟩ => place_coordsMentions cs

private theorem place_coordsMentions : ∀ cs : List (Coord Expr),
    (coordsMentions cs).map Mention.place = coordsNames cs
  | [] => rfl
  | c :: cs => by
    rw [coordsMentions, List.map_append, place_coordMentions c, place_coordsMentions cs,
      coordsNames]

private theorem place_coordMentions : ∀ c : Coord Expr,
    (coordMentions c).map Mention.place = coordNames c
  | ⟨_, value, _⟩ => value.place_mentions

end

theorem Expr.place_mem {e : Expr} {m : Mention} (hm : m ∈ e.mentions) : m.place ∈ e.names := by
  rw [← e.place_mentions]
  exact List.mem_map_of_mem hm

/-! ### Names in the order of the text -/

namespace Span

/-- One place ends before the other begins. -/
def Precedes (a b : Span) : Prop := a.stop ≤ b.start

end Span

/-- The names of a script stand one after the other, each at a place that is not empty. -/
structure Script.InOrder (script : Script) : Prop where
  ordered : script.names.Pairwise Span.Precedes
  nonempty : ∀ p ∈ script.names, p.start < p.stop

theorem Script.InOrder.nodup {script : Script} (h : script.InOrder) : script.names.Nodup := by
  apply h.ordered.imp_of_mem
  rintro a _ ha - hab rfl
  exact absurd (h.nonempty a ha) (Nat.not_lt.mpr hab)

namespace Script

open Script.Derivation

/-- The names of what was read of a chunk are names of the chunk. -/
theorem readItem_names {dialect : Dialect} {chunk : List Token} {i : Item}
    (h : readItem (closed dialect chunk) = .ok i) : Among i.names chunk := by
  have hnames := (readItem_eq_ok.mp h).names
  unfold closed at hnames
  split at hnames
  · rwa [Among, identSpans_append, show identSpans [(⟨.newline, "", endOf chunk⟩ : Token)] = [] from
      rfl, List.append_nil] at hnames
  · exact hnames

private theorem readItems_names (dialect : Dialect) (cs : List (List Token)) :
    Among (((((cs.filter fun chunk => !chunk.all Token.isTerminator).map fun chunk =>
      readItem (closed dialect chunk)).filterMap okItem?).flatMap Item.names)) cs.flatten := by
  induction cs with
  | nil => exact .nil _
  | cons c cs ih =>
    rw [List.flatten_cons, List.filter_cons]
    split
    · rw [List.map_cons, List.filterMap_cons]
      cases hread : readItem (closed dialect c) with
      | error f => exact ih.after c
      | ok i => exact (readItem_names hread).append ih
    · exact ih.after c

/-- What was read of a text has its names in the order of the text, also where the rest of the text
is at fault. -/
theorem parse_inOrder (text : String) (dialect : Dialect) : (parse text dialect).script.InOrder := by
  have hamong : Among (parse text dialect).script.names
      ((Token.scan text).frame dialect).tokens := by
    have h := readItems_names dialect (chunks ((Token.scan text).frame dialect).tokens)
    rwa [chunks, flatten_chunksAt] at h
  have hplaces : (parse text dialect).script.names.Sublist
      ((Token.scan text).tokens.map Token.span) :=
    hamong.trans ((List.filter_sublist.trans List.filter_sublist).map _)
  refine ⟨?_, fun p hp => ?_⟩
  · exact (List.pairwise_map.mpr (Token.scan_tokens_ordered text)).sublist hplaces
  · obtain ⟨t, ht, rfl⟩ := List.mem_map.mp (hplaces.subset hp)
    exact Token.scan_tokens_nonempty ht

end Script

end RasterScript
