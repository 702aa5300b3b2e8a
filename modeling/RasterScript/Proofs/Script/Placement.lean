import RasterScript.Proofs.Script.Parts
import RasterScript.Proofs.Script.Remainders

/-! The places of a script that was read fit its text. Every node was made of the tokens from the
one that it starts with to the one that it stops with, also where parentheses widen it or the end of
the text stands for a line end. -/
namespace RasterScript

open Token (Kind)
open RasterScript.Part (Laid LaidAll Opens Closes)

/-! ### Lists of parts -/

section Lists

variable {ts xs : List Token} {ps qs : List Part} {t : Token} {p : Part}

theorem Part.Laid.all (h : Laid ts p) : LaidAll ts [p] := by
  have hall := LaidAll.part h .nil
  rwa [List.append_nil] at hall

theorem Part.Laid.parts (h : Laid ts p) : LaidAll ts p.parts := by
  cases h with
  | name _ => exact .skip .nil
  | node _ _ hparts => exact hparts

namespace Part.LaidAll

theorem none (ts : List Token) : LaidAll ts [] := by
  induction ts with
  | nil => exact .nil
  | cons t ts ih => exact .skip ih

theorem after (h : LaidAll xs ps) (ts : List Token) : LaidAll (ts ++ xs) ps := by
  induction ts with
  | nil => exact h
  | cons t ts ih => exact .skip ih

theorem append : ∀ {ts ps}, LaidAll ts ps → LaidAll xs qs → LaidAll (ts ++ xs) (ps ++ qs)
  | _, _, .nil, hxs => hxs
  | _, _, .skip hts, hxs => .skip (hts.append hxs)
  | _, _, .part hp hts, hxs => by
    rw [List.append_assoc]
    exact .part hp (hts.append hxs)

theorem before (h : LaidAll ts ps) (xs : List Token) : LaidAll (ts ++ xs) ps := by
  have hall := h.append (LaidAll.none xs)
  rwa [List.append_nil] at hall

private theorem ident (ht : t.kind = .ident) (h : LaidAll ts ps) :
    LaidAll (t :: ts) (.name ⟨t.text, t.span⟩ :: ps) :=
  .part (.name ht) h

end Part.LaidAll

/-- A token whose kind is known to end no statement. -/
theorem Token.not_isTerminator {k : Kind} (ht : t.kind = k) (hk : k.isTerminator = false) :
    ¬t.isTerminator := by
  rw [isTerminator, ht, hk]
  exact Bool.false_ne_true

end Lists

/-! ### Spans that cover the tokens -/

namespace Part

/-- A span that starts with the first of some tokens and stops with one of them. -/
def Starts (ts : List Token) (span : Span) : Prop := Opens ts span ∧ Within ts span

/-- A span that stops with the last of some tokens and starts with one of them. -/
def Stops (ts : List Token) (span : Span) : Prop := Closes ts span ∧ Within ts span

section Covers

variable {text : String} {ts xs : List Token} {a b : Span} {t : Token} {p : Part} {ps : List Part}

theorem Laid.starts (h : Laid ts p) : Starts ts p.span := ⟨h.opens, h.within⟩

theorem Laid.stops (h : Laid ts p) : Stops ts p.span := ⟨h.closes, h.within⟩

theorem Starts.append (h : Starts ts a) (xs : List Token) : Starts (ts ++ xs) a :=
  ⟨h.1.append xs, h.2.subset (List.subset_append_left ts xs)⟩

theorem Stops.append (h : Stops xs a) (ts : List Token) : Stops (ts ++ xs) a :=
  ⟨h.1.append ts, h.2.subset (List.subset_append_right ts xs)⟩

private theorem starts_cons {k : Kind} (ht : t.kind = k) (hk : k.isTerminator = false)
    (ts : List Token) : Starts (t :: ts) t.span :=
  ⟨⟨t, ts, rfl, Token.not_isTerminator ht hk, rfl⟩,
    ⟨t, List.mem_cons_self, rfl⟩, t, List.mem_cons_self, rfl⟩

private theorem stops_concat (ts : List Token) (t : Token) : Stops (ts ++ [t]) t.span := by
  have ht : t ∈ ts ++ [t] := List.mem_append_right _ (List.mem_singleton_self t)
  exact ⟨⟨ts, t, rfl, rfl⟩, ⟨t, ht, rfl⟩, t, ht, rfl⟩

/-- On tokens in the order of the text, a join runs from the start of one span to the stop of the
other. -/
theorem join_eq (hrow : Token.Row text ts) (ha : Starts ts a) (hb : Stops ts b) :
    a.join b = ⟨a.start, b.stop⟩ := by
  rw [Span.join, min_eq_left (ha.1.le hrow hb.2), max_eq_right (hb.1.le hrow ha.2)]

theorem Stops.join (hrow : Token.Row text ts) (ha : Starts ts a) (hb : Stops ts b) :
    Stops ts (a.join b) := by
  rw [join_eq hrow ha hb]
  exact ⟨hb.1, ha.2.1, hb.2.2⟩

theorem Laid.join (hrow : Token.Row text ts) (ha : Starts ts a) (hb : Stops ts b)
    (hps : LaidAll ts ps) : Laid ts (.node (a.join b) ps) := by
  rw [join_eq hrow ha hb]
  exact .node ha.1 hb.1 hps

/-- A node may be made of one token. -/
theorem Laid.single {k : Kind} (ht : t.kind = k) (hk : k.isTerminator = false)
    (hps : LaidAll [t] ps) : Laid [t] (.node t.span ps) :=
  .node (starts_cons ht hk []).1 (stops_concat [] t).1 hps

end Covers

end Part

/-! ### Derived trees -/

namespace Script.Derivation

open RasterScript.Part (Stops starts_cons stops_concat)
open Token (Row)

variable {A : Groups} {text : String} {ts xs : List Token} {t : Token}

private theorem groupPart_span (g : Selector Expr) : (groupPart g).span = g.span := by
  cases g
  rfl

mutual

theorem Expression.laid : ∀ {ts e}, Expression A ts e → Row text ts → Laid ts e.part
  | _, _, .operators h, hrow => h.laid hrow
  | _, _, .choice htest _ hyes _ hno, hrow => by
    have hrest := (hrow.right _).tail
    have htest := htest.laid hrow.left
    have hyes := hyes.laid hrest.left
    have hno := hno.laid (hrest.right _).tail
    exact .join hrow (htest.starts.append _)
      ((((hno.stops.append [_]).append _).append [_]).append _)
      (htest.all.append (.skip (hyes.all.append (.skip hno.all))))

theorem Operators.laid : ∀ {n ts e}, Operators A n ts e → Row text ts → Laid ts e.part
  | _, _, _, .operand h, hrow => h.laid hrow
  | _, _, _, .tighter _ _ h, hrow => h.laid hrow
  | _, _, _, .operator _ _ hleft _ hright, hrow => by
    have hleft := hleft.laid hrow.left
    have hright := hright.laid (hrow.right _).tail
    exact .join hrow (hleft.starts.append _) ((hright.stops.append [_]).append _)
      (hleft.all.append (.skip hright.all))

theorem Operand.laid : ∀ {ts e}, Operand A ts e → Row text ts → Laid ts e.part
  | _, _, @Operand.signed _ _ _ op _ ho h, hrow => by
    have h := h.laid hrow.tail
    exact .join hrow (starts_cons ho (by cases op <;> rfl) _) (h.stops.append [_]) (.skip h.all)
  | _, _, .power hbase _ h, hrow => by
    have hbase := hbase.laid hrow.left
    have h := h.laid (hrow.right _).tail
    exact .join hrow (hbase.starts.append _) ((h.stops.append [_]).append _)
      (hbase.all.append (.skip h.all))
  | _, _, .primary h, hrow => h.laid hrow

theorem Primary.laid : ∀ {ts e}, Primary A ts e → Row text ts → Laid ts e.part
  | _, _, .number ht, _ => .single ht rfl (.none _)
  | _, _, .name ht, _ => .single ht rfl (.ident ht .nil)
  | _, _, .call hf ho hargs _, hrow => by
    have hparens : Stops _ _ :=
      .join hrow.tail (starts_cons ho rfl _) ((stops_concat _ _).append [_])
    exact .join hrow (starts_cons hf rfl _) (hparens.append [_])
      (.ident hf (.skip ((hargs.laid hrow.tail.tail.left).before _)))
  | _, _, .image hi hg _, hrow => by
    have hg := hg.laid hrow.tail
    exact .join hrow (starts_cons hi rfl _) (Stops.append (groupPart_span _ ▸ hg.stops) [_])
      (.ident hi hg.all)
  | _, _, .imageTwice hi hg hk _, hrow => by
    have hg := hg.laid hrow.tail.left
    have hk := hk.laid (hrow.tail.right _)
    exact .join hrow (starts_cons hi rfl _)
      ((Stops.append (groupPart_span _ ▸ hk.stops) _).append [_])
      (.ident hi (hg.all.append hk.all))
  | _, _, .list ho hitems _, hrow =>
    .join hrow (starts_cons ho rfl _) ((stops_concat _ _).append [_])
      (.skip ((hitems.laid hrow.tail.left).before _))
  | _, _, .paren ho he _, hrow => by
    rw [Expr.part_withSpan]
    exact .join hrow (starts_cons ho rfl _) ((stops_concat _ _).append [_])
      (.skip ((he.laid hrow.tail.left).parts.before _))

theorem Arguments.laid : ∀ {ts es}, Arguments A ts es → Row text ts → LaidAll ts (exprsParts es)
  | _, _, .none, _ => .nil
  | _, _, .some he hes, hrow => .part (he.laid hrow.left) (hes.laid (hrow.right _))

theorem MoreArguments.laid : ∀ {ts es}, MoreArguments A ts es → Row text ts →
    LaidAll ts (exprsParts es)
  | _, _, .done, _ => .nil
  | _, _, .more _ he hes, hrow =>
    .skip (.part (he.laid hrow.tail.left) (hes.laid (hrow.tail.right _)))

theorem Group.laid : ∀ {ts g}, Group A ts g → Row text ts → Laid ts (groupPart g)
  | _, _, .mk ho hx hmore _, hrow => by
    have hmore := hmore.laid (hrow.tail.right _).left
    exact .join hrow (starts_cons ho rfl _) (((stops_concat _ _).append _).append [_])
      (.skip (.part (hx.laid hrow.tail.left) (hmore.before _)))

theorem Coordinate.laid : ∀ {ts x}, Coordinate A ts x → Row text ts → Laid ts (coordPart x)
  | _, _, .absolute he, hrow => by
    have he := he.laid hrow
    exact .node he.opens he.closes he.all
  | _, _, .relative hd he, hrow => by
    have he := he.laid hrow.tail
    exact .join hrow (starts_cons hd rfl _) (he.stops.append [_]) (.skip he.all)

theorem MoreCoordinates.laid : ∀ {ts more}, MoreCoordinates A ts more → Row text ts →
    LaidAll ts (coordsParts more)
  | _, _, .done, _ => .nil
  | _, _, .more _ hx hmore, hrow =>
    .skip (.part (hx.laid hrow.tail.left) (hmore.laid (hrow.tail.right _)))

end

theorem Condition.laid {e : Expr} (h : Condition A ts e) (hrow : Row text ts) :
    LaidAll ts [e.part] := by
  cases h with
  | mk _ he _ => exact .skip ((he.laid hrow.tail.left).all.before _)

theorem Iterated.laid {source : Source} (h : Iterated A ts source) (hrow : Row text ts) :
    LaidAll ts source.parts := by
  cases h with
  | list he => exact (he.laid hrow).all
  | range hlow _ hhigh =>
    exact (hlow.laid hrow.left).all.append (.skip (hhigh.laid (hrow.right _).tail).all)

mutual

theorem Statement.laid : ∀ {ts s}, Statement A ts s → Row text ts → Laid ts s.part
  | _, _, .assign hi _ he _, hrow =>
    .join hrow (starts_cons hi rfl _) ((stops_concat _ _).append [_, _])
      (.ident hi (.skip ((he.laid hrow.tail.tail.left).all.before _)))
  | _, _, .cond hk htest hyes, hrow => by
    have hyes := hyes.laid (hrow.tail.right _)
    exact .join hrow (starts_cons hk rfl _) ((hyes.stops.append _).append [_])
      (.skip ((htest.laid hrow.tail.left).append hyes.all))
  | _, _, .condElse hk htest hyes _ _ _ hno, hrow => by
    have hrest := hrow.tail.right _
    have hyes := hyes.laid hrest.left
    have hno := hno.laid ((hrest.right _).right _).tail
    exact .join hrow (starts_cons hk rfl _)
      (((((hno.stops.append [_]).append _).append _).append _).append [_])
      (.skip ((htest.laid hrow.tail.left).append
        (hyes.all.append ((LaidAll.skip hno.all).after _))))
  | _, _, @Statement.loop _ _ _ _ kind _ _ hk htest hbody, hrow => by
    have hbody := hbody.laid (hrow.tail.right _)
    exact .join hrow (starts_cons hk (by cases kind <;> rfl) _) ((hbody.stops.append _).append [_])
      (.skip ((htest.laid hrow.tail.left).append hbody.all))
  | _, _, .foreach hk _ hi _ hsource _ hbody, hrow => by
    have hrest := hrow.tail.tail.tail.tail
    have hbody := hbody.laid (hrest.right _).tail
    exact .join hrow (starts_cons hk rfl _)
      (((hbody.stops.append [_]).append _).append [_, _, _, _])
      (.skip (.skip (.ident hi (.skip ((hsource.laid hrest.left).append (.skip hbody.all))))))
  | _, _, .breakIf hk htest _, hrow =>
    .join hrow (starts_cons hk rfl _) ((stops_concat _ _).append [_])
      (.skip ((htest.laid hrow.tail.left).before _))
  | _, _, .leave hk _, hrow =>
    .join hrow (starts_cons hk rfl _) (stops_concat [_] _) (.none _)
  | _, _, .block ho hbody _, hrow =>
    .join hrow (starts_cons ho rfl _) ((stops_concat _ _).append [_])
      (.skip ((hbody.laid hrow.tail.left).before _))

theorem Body.laid : ∀ {ts body}, Body A ts body → Row text ts → LaidAll ts (stmtsParts body)
  | _, _, .done, _ => .nil
  | _, _, .terminator _ h, hrow => .skip (h.laid hrow.tail)
  | _, _, .statement hs h, hrow => .part (hs.laid hrow.left) (h.laid (hrow.right _))

end

theorem Entries.laid {α : Type} {E : List Token → α → Prop} {f : α → List Part} {as : List α}
    (h : Entries E ts as) (hrow : Row text ts)
    (hE : ∀ {ts a}, E ts a → Row text ts → LaidAll ts (f a)) :
    LaidAll ts (as.flatMap f) := by
  induction h with
  | done => exact .nil
  | terminator _ _ ih => exact .skip (ih hrow.tail)
  | entry ha _ ih => exact (hE ha hrow.left).append (ih (hrow.right _))

theorem ImageEntry.laid {d : ImageDecl} (h : ImageEntry ts d) (hrow : Row text ts) :
    Laid ts d.part := by
  cases h with
  | mk hi _ _ _ =>
    exact .join hrow (starts_cons hi rfl _) (stops_concat [_, _, _] _) (.ident hi (.none _))

theorem ValueEntry.laid {v : NamedValue} (h : ValueEntry A ts v) (hrow : Row text ts) :
    LaidAll ts v.parts := by
  cases h with
  | mk hi _ he _ => exact .ident hi (.skip ((he.laid hrow.tail.tail.left).all.before _))

/-- A keyword with its braces. -/
theorem laid_braced {k o c : Token} {kind : Kind} {ps : List Part} (hk : k.kind = kind)
    (hkind : kind.isTerminator = false) (ho : o.kind = .lbrace)
    (hrow : Row text (k :: o :: (ts ++ [c]))) (hps : LaidAll ts ps) :
    Laid (k :: o :: (ts ++ [c])) (.node (k.span.join (o.span.join c.span)) ps) := by
  have hbraces : Stops (o :: (ts ++ [c])) (o.span.join c.span) :=
    .join hrow.tail (starts_cons ho rfl _) ((stops_concat _ _).append [_])
  exact .join hrow (starts_cons hk hkind _) (hbraces.append [_]) (.skip (.skip (hps.before _)))

/-- An item is made of all of its tokens. -/
theorem TopStatement.laid {i : Item} (h : TopStatement A ts i) (hrow : Row text ts) :
    Laid ts i.part := by
  cases h with
  | images hk ho hdecls _ =>
    have hparts := hdecls.laid hrow.tail.tail.left fun h hrow => (ImageEntry.laid h hrow).all
    rw [← List.map_eq_flatMap] at hparts
    exact laid_braced hk rfl ho hrow hparts
  | init hk ho hvalues _ =>
    exact laid_braced hk rfl ho hrow (hvalues.laid hrow.tail.tail.left ValueEntry.laid)
  | options hk ho hvalues _ =>
    exact laid_braced hk rfl ho hrow (hvalues.laid hrow.tail.tail.left ValueEntry.laid)
  | statement hs => exact hs.laid hrow

end Script.Derivation

/-! ### Tokens of a text -/

namespace Token

variable {text : String} {ts xs : List Token} {n : Nat}

/-- Each token of a text stands in it as a stretch of its own shape. -/
theorem Lexed.tokens {cs : List Char} {fs : List (Located Fault)} (h : Lexed n cs ts fs) :
    ∀ t ∈ ts, ∃ before w rest, cs = before ++ (w ++ rest) ∧ TokenAt t.kind w rest ∧
      t.text = String.ofList w ∧
      t.span = ⟨n + byteLength before, n + byteLength before + byteLength w⟩ := by
  have hafter {m : Nat} {u cs : List Char} {t : Token}
      (h : ∃ before w rest, cs = before ++ (w ++ rest) ∧ TokenAt t.kind w rest ∧
        t.text = String.ofList w ∧ t.span = ⟨m + byteLength u + byteLength before,
          m + byteLength u + byteLength before + byteLength w⟩) :
      ∃ before w rest, u ++ cs = before ++ (w ++ rest) ∧ TokenAt t.kind w rest ∧
        t.text = String.ofList w ∧
        t.span = ⟨m + byteLength before, m + byteLength before + byteLength w⟩ := by
    obtain ⟨before, w, rest, rfl, hat, htext, hspan⟩ := h
    refine ⟨u ++ before, w, rest, (List.append_assoc ..).symm, hat, htext, ?_⟩
    rw [byteLength_append, ← Nat.add_assoc]
    exact hspan
  induction h with
  | done => exact List.forall_mem_nil _
  | skip _ _ ih => exact fun t ht => hafter (ih t ht)
  | @token n kind w rest ts fs hw _ ih =>
    refine List.forall_mem_cons.mpr ⟨?_, fun t ht => hafter (ih t ht)⟩
    exact ⟨[], w, rest, rfl, hw, rfl, rfl⟩
  | fault _ _ ih => exact fun t ht => hafter (ih t ht)

private theorem spells_ofList {before w after : List Char}
    (h : text.toList = before ++ (w ++ after)) :
    Span.Spells ⟨0 + byteLength before, 0 + byteLength before + byteLength w⟩ text
      (String.ofList w) := by
  refine ⟨String.ofList before, String.ofList after, ?_, ?_⟩
  · rw [← String.ofList_append, ← String.ofList_append, List.append_assoc, ← h,
      String.ofList_toList]
  · rw [Nat.zero_add, byteLength_eq, byteLength_eq]

theorem Stands.spells {span : Span} (h : Stands 0 text.toList span) : ∃ w, span.Spells text w := by
  obtain ⟨before, w, after, htext, -, rfl⟩ := h
  exact ⟨_, spells_ofList htext⟩

private theorem scan_lexed (text : String) :
    Lexed 0 text.toList (scan text).tokens (scan text).faults :=
  lexed_place 0 _

theorem scan_row (text : String) : Row text (scan text).tokens where
  ordered := scan_tokens_ordered text
  spells t ht := by
    obtain ⟨before, w, rest, htext, -, hw, hspan⟩ := (scan_lexed text).tokens t ht
    rw [hw, hspan]
    exact spells_ofList htext
  nonempty t ht _ := by
    obtain ⟨before, w, rest, -, hat, hw, -⟩ := (scan_lexed text).tokens t ht
    rw [hw]
    exact fun hempty => hat.ne_nil (String.ofList_injective hempty)

/-- A continuation opens with a backslash of its own byte. -/
theorem continuation_spells {t : Token} (ht : t ∈ (scan text).tokens)
    (hkind : t.kind = .continuation) :
    Span.Spells ⟨t.span.start, t.span.start + 1⟩ text "\\" := by
  obtain ⟨before, w, rest, htext, hat, -, hspan⟩ := (scan_lexed text).tokens t ht
  have hshape := hat.longest.matches_self.shape
  rw [hkind] at hshape
  obtain ⟨margin, comment, rfl, -, -⟩ := hshape
  rw [hspan]
  exact spells_ofList (w := ['\\']) htext

theorem frame_faults {dialect : Dialect} {f : Located Fault}
    (h : f ∈ ((scan text).frame dialect).faults) : ∃ w, f.span.Spells text w := by
  rw [Scan.frame, List.mem_mergeSort] at h
  rcases List.mem_append.mp h with h | h
  · exact ((scan_lexed text).stands.2 f h).spells
  · obtain ⟨t, ht, hfault⟩ := List.mem_filterMap.mp h
    rw [continuationFault?] at hfault
    split at hfault
    · next hkind =>
      cases hfault
      exact ⟨_, continuation_spells ht hkind.1⟩
    · cases hfault

end Token

/-! ### Items of a text -/

namespace Script

open Token (Row)
open RasterScript.Part (Fits Within)

variable {text : String} {dialect : Dialect} {ts : List Token}

private theorem endOf_concat (before : List Token) (last : Token) :
    endOf (before ++ [last]) = .point last.span.stop := by
  rw [endOf, List.getLast?_concat]

private theorem endOf_spells (hrow : Row text ts) : (endOf ts).Spells text "" := by
  rcases List.eq_nil_or_concat' ts with rfl | ⟨before, last, rfl⟩
  · exact ⟨"", text, by rw [String.append_empty, String.empty_append], rfl⟩
  · have hlast := hrow.spells last (List.mem_append_right _ (List.mem_singleton_self _))
    obtain ⟨upto, after, htext, hstop⟩ := hlast.boundaries.2
    rw [endOf_concat, hstop]
    exact ⟨upto, after, by rw [String.append_empty]; exact htext, rfl⟩

private theorem le_endOf (hrow : Row text ts) {t : Token} (ht : t ∈ ts) :
    t.span.stop ≤ (endOf ts).start := by
  rcases List.eq_nil_or_concat' ts with rfl | ⟨before, last, rfl⟩
  · cases ht
  · rw [endOf_concat]
    rcases List.mem_append.mp ht with ht | ht
    · have hbefore := (List.pairwise_append.mp hrow.ordered).2.2 t ht last (List.mem_singleton_self _)
      have hlast := hrow.spells last (List.mem_append_right _ (List.mem_singleton_self _))
      exact Nat.le_trans hbefore hlast.start_le
    · rw [List.mem_singleton.mp ht]
      exact Nat.le_refl _

/-- The line end that the end of a text stands for comes after all tokens. -/
theorem closed_row (dialect : Dialect) (hrow : Row text ts) : Row text (closed dialect ts) := by
  rw [closed]
  split
  · refine ⟨List.pairwise_append.mpr ⟨hrow.ordered, List.pairwise_singleton .., ?_⟩, ?_, ?_⟩
    · intro s hs t ht
      rw [List.mem_singleton.mp ht]
      exact le_endOf hrow hs
    · refine List.forall_mem_append.mpr ⟨hrow.spells, List.forall_mem_singleton.mpr ?_⟩
      exact endOf_spells hrow
    · refine List.forall_mem_append.mpr ⟨hrow.nonempty, List.forall_mem_singleton.mpr ?_⟩
      exact fun hterminator => absurd rfl hterminator
  · exact hrow

/-- What is made of the tokens of a chunk and of the line end after them is made of the tokens. -/
theorem within_of_closed {p : Part} (h : Laid (closed dialect ts) p) : Within ts p.span := by
  obtain ⟨first, rest, hts, hterminator, hstart⟩ := h.opens
  obtain ⟨before, last, hts', hstop⟩ := h.closes
  rw [closed] at hts hts'
  split at hts
  · next hopen =>
    rw [if_pos hopen] at hts'
    obtain ⟨-, hlast⟩ := List.append_inj' hts' rfl
    obtain rfl := List.singleton_inj.mp hlast
    have hmem : first ∈ ts := by
      have hfirst : first ∈ ts ++ [⟨.newline, "", endOf ts⟩] := hts ▸ List.mem_cons_self
      refine (List.mem_append.mp hfirst).resolve_right fun hend => ?_
      rw [List.mem_singleton.mp hend] at hterminator
      exact hterminator rfl
    rcases List.eq_nil_or_concat' ts with rfl | ⟨front, final, rfl⟩
    · cases hmem
    · rw [endOf_concat] at hstop
      exact ⟨⟨first, hmem, hstart⟩, final,
        List.mem_append_right _ (List.mem_singleton_self _), hstop⟩
  · next hopen =>
    rw [if_neg hopen] at hts'
    refine ⟨⟨first, hts ▸ List.mem_cons_self, hstart⟩, last, ?_, hstop⟩
    rw [hts']
    exact List.mem_append_right _ (List.mem_singleton_self _)

private theorem readItem_fits {i : Item} (hrow : Row text ts)
    (h : readItem (closed dialect ts) = .ok i) : Fits text i.part ∧ Within ts i.part.span := by
  have hclosed := closed_row dialect hrow
  have hlaid := (readItem_eq_ok.mp h).laid hclosed
  exact ⟨hlaid.fits hclosed, within_of_closed hlaid⟩

/-- The items that were read fit the text and follow each other, whatever stands between them. -/
theorem readItems_fit (dialect : Dialect) (cs : List (List Token)) (hrow : Row text cs.flatten) :
    let ps := ((((cs.filter fun chunk => !chunk.all Token.isTerminator).map fun chunk =>
      readItem (closed dialect chunk)).filterMap okItem?).map Item.part)
    (∀ p ∈ ps, Fits text p) ∧ (ps.map Part.span).Pairwise Span.Precedes ∧
      ∀ p ∈ ps, Within cs.flatten p.span := by
  induction cs with
  | nil => exact ⟨List.forall_mem_nil _, .nil, List.forall_mem_nil _⟩
  | cons c cs ih =>
    rw [List.flatten_cons] at hrow ⊢
    obtain ⟨hfits, hordered, hwithin⟩ := ih (hrow.right c)
    have hlater := fun p hp => (hwithin p hp).subset (List.subset_append_right c cs.flatten)
    rw [List.filter_cons]
    split
    · rw [List.map_cons, List.filterMap_cons]
      cases hread : readItem (closed dialect c) with
      | error f => exact ⟨hfits, hordered, hlater⟩
      | ok i =>
        obtain ⟨hi, hiwithin⟩ := readItem_fits hrow.left hread
        refine ⟨List.forall_mem_cons.mpr ⟨hi, hfits⟩, List.pairwise_cons.mpr ⟨?_, hordered⟩, ?_⟩
        · intro span hspan
          obtain ⟨p, hp, rfl⟩ := List.mem_map.mp hspan
          exact hiwithin.precedes (hwithin p hp) hrow
        · refine List.forall_mem_cons.mpr ⟨?_, hlater⟩
          exact hiwithin.subset (List.subset_append_left _ _)
    · exact ⟨hfits, hordered, hlater⟩

private theorem frame_row (text : String) (dialect : Dialect) :
    Row text (chunks ((Token.scan text).frame dialect).tokens).flatten := by
  rw [chunks, Derivation.flatten_chunksAt]
  exact (Token.scan_row text).sublist List.filter_sublist

/-- What was read of a text fits it, also where the rest of the text is at fault. -/
theorem parse_fits (text : String) (dialect : Dialect) :
    (∀ p ∈ (parse text dialect).script.parts, Fits text p) ∧
      ((parse text dialect).script.parts.map Part.span).Pairwise Span.Precedes := by
  obtain ⟨hfits, hordered, -⟩ := readItems_fit dialect _ (frame_row text dialect)
  exact ⟨hfits, hordered⟩

/-! ### Faults of a text -/

private theorem readItem_fault {f : Located Fault} (hrow : Row text ts)
    (h : readItem ts = .error f) : ∃ w, f.span.Spells text w := by
  have hfault {rest : List Token} (hrest : rest <:+ ts) :
      ∃ w, (faultAt ts rest).span.Spells text w := by
    cases rest with
    | nil => exact ⟨_, endOf_spells hrow⟩
    | cons t rest => exact ⟨_, hrow.spells t (hrest.subset List.mem_cons_self)⟩
  have hforward := Grammar.item_forward ts
  rw [readItem] at h
  split at h
  · cases h
  · next heq =>
    cases h
    rw [heq] at hforward
    exact hfault hforward
  · next heq =>
    cases h
    rw [heq] at hforward
    exact hfault hforward

/-- Everything that reading a text finds wrong is found at whole characters of it. -/
theorem parse_diagnostics {d : Diagnostic} (h : d ∈ (parse text dialect).diagnostics) :
    ∃ w, d.span.Spells text w := by
  rcases List.mem_append.mp h with h | h
  · obtain ⟨f, hf, rfl⟩ := List.mem_map.mp h
    exact Token.frame_faults hf
  · obtain ⟨f, hf, rfl⟩ := List.mem_map.mp h
    obtain ⟨r, hr, hfault⟩ := List.mem_filterMap.mp hf
    obtain ⟨chunk, hchunk, rfl⟩ := List.mem_map.mp hr
    have hrow : Row text chunk := (frame_row text dialect).sublist
      (List.sublist_flatten_of_mem (List.mem_of_mem_filter hchunk))
    cases hread : readItem (closed dialect chunk) with
    | ok i =>
      rw [hread] at hfault
      cases hfault
    | error f' =>
      rw [hread] at hfault
      cases hfault
      exact readItem_fault (closed_row dialect hrow) hread

end Script

end RasterScript
