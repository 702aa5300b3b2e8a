import Mathlib.Data.List.Forall2
import RasterScript.Proofs.Script.Completeness

/-! Cutting tokens into items cuts at the ends of the top statements and nowhere else. -/
namespace RasterScript.Script.Derivation

open Token (Kind)

variable {A : Groups} {ts xs rest : List Token} {t : Token} {d : Nat}

/-! ### Tokens that cut nothing -/

/-- Whether a token of this kind neither ends an item nor changes the depth. -/
def isPlain (k : Kind) : Bool := k ≠ .lbrace && k ≠ .rbrace && !k.isTerminator

/-- All of the tokens are plain. -/
def Plain (ts : List Token) : Prop := ∀ t ∈ ts, isPlain t.kind

@[simp] theorem Plain.nil : Plain [] := by simp [Plain]

@[simp] theorem plain_cons : Plain (t :: ts) ↔ isPlain t.kind ∧ Plain ts := List.forall_mem_cons

@[simp] theorem plain_append : Plain (ts ++ xs) ↔ Plain ts ∧ Plain xs := List.forall_mem_append

@[simp] theorem isPlain_operatorToken (op : BinaryOp) : isPlain (operatorToken op) := by
  cases op <;> rfl

@[simp] theorem isPlain_signToken (op : UnaryOp) : isPlain (signToken op) := by
  cases op <;> rfl

@[simp] theorem isPlain_assignToken (op : AssignOp) : isPlain (assignToken op) := by
  cases op <;> rfl

@[simp] theorem isPlain_roleToken (r : ImageRole) : isPlain (roleToken r) := by
  cases r <;> rfl

@[simp] theorem isPlain_loopToken (k : LoopKind) : isPlain (loopToken k) := by
  cases k <;> rfl

theorem isPlain_of_eq {k : Kind} (h : t.kind = k) (hk : isPlain k := by rfl) : isPlain t.kind := by
  rw [h, hk]

mutual

theorem Expression.plain : ∀ {ts e}, Expression A ts e → Plain ts
  | _, _, .operators h => h.plain
  | _, _, .choice h ho hyes hc hno => by
    simp [h.plain, hyes.plain, hno.plain, isPlain_of_eq ho, isPlain_of_eq hc]

theorem Operators.plain : ∀ {n ts e}, Operators A n ts e → Plain ts
  | _, _, _, .operand h => h.plain
  | _, _, _, .tighter _ _ h => h.plain
  | _, _, _, .operator _ _ hleft ho hright => by simp [hleft.plain, hright.plain, ho]

theorem Operand.plain : ∀ {ts e}, Operand A ts e → Plain ts
  | _, _, .signed ho h => by simp [h.plain, ho]
  | _, _, .power hbase ho h => by simp [hbase.plain, h.plain, isPlain_of_eq ho]
  | _, _, .primary h => h.plain

theorem Primary.plain : ∀ {ts e}, Primary A ts e → Plain ts
  | _, _, .number h => by simp [isPlain_of_eq h]
  | _, _, .name h => by simp [isPlain_of_eq h]
  | _, _, .call h ho hargs hc => by
    simp [isPlain_of_eq h, isPlain_of_eq ho, hargs.plain, isPlain_of_eq hc]
  | _, _, .image h hg _ => by simp [isPlain_of_eq h, hg.plain]
  | _, _, .imageTwice h hg hk _ => by simp [isPlain_of_eq h, hg.plain, hk.plain]
  | _, _, .list ho hitems hc => by simp [isPlain_of_eq ho, hitems.plain, isPlain_of_eq hc]
  | _, _, .paren ho he hc => by simp [isPlain_of_eq ho, he.plain, isPlain_of_eq hc]

theorem Arguments.plain : ∀ {ts es}, Arguments A ts es → Plain ts
  | _, _, .none => .nil
  | _, _, .some he hes => by simp [he.plain, hes.plain]

theorem MoreArguments.plain : ∀ {ts es}, MoreArguments A ts es → Plain ts
  | _, _, .done => .nil
  | _, _, .more hc he hes => by simp [isPlain_of_eq hc, he.plain, hes.plain]

theorem Group.plain : ∀ {ts g}, Group A ts g → Plain ts
  | _, _, .mk ho hx hmore hc => by
    simp [isPlain_of_eq ho, hx.plain, hmore.plain, isPlain_of_eq hc]

theorem Coordinate.plain : ∀ {ts x}, Coordinate A ts x → Plain ts
  | _, _, .absolute he => he.plain
  | _, _, .relative hd he => by simp [isPlain_of_eq hd, he.plain]

theorem MoreCoordinates.plain : ∀ {ts more}, MoreCoordinates A ts more → Plain ts
  | _, _, .done => .nil
  | _, _, .more hc hx hmore => by simp [isPlain_of_eq hc, hx.plain, hmore.plain]

end

theorem Condition.plain {e : Expr} (h : Condition A ts e) : Plain ts := by
  cases h with
  | mk ho he hc => simp [isPlain_of_eq ho, he.plain, isPlain_of_eq hc]

theorem Iterated.plain {source : Source} (h : Iterated A ts source) : Plain ts := by
  cases h with
  | list he => exact he.plain
  | range hlow hc hhigh => simp [hlow.plain, isPlain_of_eq hc, hhigh.plain]

/-! ### Cutting step by step -/

/-- Put tokens before the first chunk, or make one of them where there is none. -/
def attach : List Token → List (List Token) → List (List Token)
  | [], cs => cs
  | t :: ts, cs =>
    match attach ts cs with
    | [] => [[t]]
    | c :: cs => (t :: c) :: cs

private theorem attach_append (ts xs : List Token) (cs : List (List Token)) :
    attach (ts ++ xs) cs = attach ts (attach xs cs) := by
  induction ts with
  | nil => rfl
  | cons t ts ih => simp only [List.cons_append, attach, ih]

private theorem attach_cons (ts c : List Token) (cs : List (List Token)) :
    attach ts (c :: cs) = (ts ++ c) :: cs := by
  induction ts with
  | nil => rfl
  | cons t ts ih => simp only [attach, ih, List.cons_append]

/-- The chunks of tokens that end an item where they stand at the top and no `else` follows. -/
def cut (d : Nat) (ts rest : List Token) : List (List Token) :=
  if d = 0 ∧ elseFollows rest = false then ts :: chunksAt d rest
  else attach ts (chunksAt d rest)

private theorem attach_cut (d : Nat) (xs ts rest : List Token) :
    attach xs (cut d ts rest) = cut d (xs ++ ts) rest := by
  unfold cut
  split
  · exact attach_cons ..
  · exact (attach_append ..).symm

private theorem cut_of_elseFollows (h : elseFollows rest) :
    cut d ts rest = attach ts (chunksAt d rest) :=
  if_neg (by simp [h])

private theorem cut_inside : cut (d + 1) ts rest = attach ts (chunksAt (d + 1) rest) :=
  if_neg (by simp)

private theorem chunksAt_attach (h : endsItem d t = false) :
    chunksAt d (t :: rest) = attach [t] (chunksAt (depthAfter d t) rest) := by
  simp only [chunksAt, h, Bool.false_and, Bool.false_eq_true, if_false]
  rfl

private theorem chunksAt_cut {e : Nat} (hd : depthAfter d t = e)
    (h : endsItem d t = decide (e = 0)) : chunksAt d (t :: rest) = cut e [t] rest := by
  subst hd
  simp only [chunksAt, h, cut, Bool.and_eq_true, decide_eq_true_eq, Bool.not_eq_true']
  rfl

private theorem chunksAt_terminator (h : t.isTerminator) :
    chunksAt d (t :: rest) = cut d [t] rest := by
  have hk : t.kind = .semicolon ∨ t.kind = .newline := by
    simpa [Token.isTerminator, Kind.isTerminator] using h
  refine chunksAt_cut ?_ ?_
  · rcases hk with hk | hk <;> simp [depthAfter, hk]
  · rcases hk with hk | hk <;> simp [endsItem, hk]

private theorem chunksAt_lbrace (h : t.kind = .lbrace) :
    chunksAt d (t :: rest) = attach [t] (chunksAt (d + 1) rest) := by
  rw [chunksAt_attach (by simp [endsItem, h])]
  simp [depthAfter, h]

private theorem chunksAt_rbrace (h : t.kind = .rbrace) :
    chunksAt (d + 1) (t :: rest) = cut d [t] rest :=
  chunksAt_cut (by simp [depthAfter, h]) (by simp [endsItem, depthAfter, h])

private theorem chunksAt_plain (h : Plain ts) :
    chunksAt d (ts ++ rest) = attach ts (chunksAt d rest) := by
  induction ts with
  | nil => rfl
  | cons t ts ih =>
    obtain ⟨ht, hts⟩ := plain_cons.mp h
    have hends : endsItem d t = false := by
      cases hk : t.kind <;> simp [endsItem, hk] <;> simp [hk, isPlain, Kind.isTerminator] at ht
    have hdepth : depthAfter d t = d := by
      cases hk : t.kind <;> simp [depthAfter, hk] <;> simp [hk, isPlain, Kind.isTerminator] at ht
    rw [List.cons_append, chunksAt_attach hends, hdepth, ih hts]
    exact (attach_append [t] ts _).symm

/-- Line ends before an `else` cut nothing. -/
theorem chunksAt_newlines {ends : List Token} {o : Token} (hends : ∀ n ∈ ends, n.kind = .newline)
    (ho : o.kind = .kwElse) :
    chunksAt d (ends ++ o :: rest) = attach (ends ++ [o]) (chunksAt d rest) := by
  induction ends with
  | nil =>
    have hplain : Plain [o] := by simp [isPlain_of_eq ho]
    exact chunksAt_plain hplain
  | cons n ends ih =>
    obtain ⟨hn, hends⟩ := List.forall_mem_cons.mp hends
    have hterm : n.isTerminator := by simp [Token.isTerminator, hn, Kind.isTerminator]
    rw [List.cons_append, chunksAt_terminator hterm,
      cut_of_elseFollows (elseFollows_newlines hends ho), ih hends]
    exact (attach_append [n] _ _).symm

/-- Tokens that are cut off as one stay one with plain tokens before them. -/
theorem chunksAt_plain_cut (h : Plain xs) (hts : chunksAt d (ts ++ rest) = cut d ts rest) :
    chunksAt d (xs ++ ts ++ rest) = cut d (xs ++ ts) rest := by
  rw [List.append_assoc, chunksAt_plain h, hts, attach_cut]

/-! ### Cutting statements -/

mutual

theorem Statement.chunksAt_eq : ∀ {ts s}, Statement A ts s → ∀ d rest,
    chunksAt d (ts ++ rest) = cut d ts rest
  | _, _, @Statement.assign _ ts o i t _ _ hi ho he ht, d, rest => by
    have hplain : Plain (i :: o :: ts) := by simp [isPlain_of_eq hi, ho, he.plain]
    exact chunksAt_plain_cut hplain (chunksAt_terminator ht)
  | _, _, @Statement.cond _ ts _ k _ _ hk htest hyes, d, rest => by
    have hplain : Plain (k :: ts) := by simp [isPlain_of_eq hk, htest.plain]
    exact chunksAt_plain_cut hplain (hyes.chunksAt_eq d rest)
  | _, _, @Statement.condElse _ ts xs ys o k _ _ _ ends hk htest hyes _ hends ho hno, d, rest => by
    have hplain : Plain (k :: ts) := by simp [isPlain_of_eq hk, htest.plain]
    have hyes := hyes.chunksAt_eq d (ends ++ o :: (ys ++ rest))
    rw [cut_of_elseFollows (elseFollows_newlines hends ho), chunksAt_newlines hends ho,
      hno.chunksAt_eq d rest, attach_cut, attach_cut] at hyes
    refine chunksAt_plain_cut hplain ?_
    simpa using hyes
  | _, _, @Statement.loop _ ts _ k _ _ _ hk htest hbody, d, rest => by
    have hplain : Plain (k :: ts) := by simp [hk, htest.plain]
    exact chunksAt_plain_cut hplain (hbody.chunksAt_eq d rest)
  | _, _, @Statement.foreach _ ts xs o c i k _ _ kin hk ho hi hin hsource hc hbody, d, rest => by
    have hplain : Plain (k :: o :: i :: kin :: (ts ++ [c])) := by
      simp [isPlain_of_eq hk, isPlain_of_eq ho, isPlain_of_eq hi, isPlain_of_eq hin,
        hsource.plain, isPlain_of_eq hc]
    have hwhole := chunksAt_plain_cut hplain (hbody.chunksAt_eq d rest)
    simpa using hwhole
  | _, _, @Statement.breakIf _ ts k t _ hk htest ht, d, rest => by
    have hplain : Plain (k :: ts) := by simp [isPlain_of_eq hk, htest.plain]
    exact chunksAt_plain_cut hplain (chunksAt_terminator ht)
  | _, _, @Statement.leave _ k t hk ht, d, rest => by
    have hplain : Plain [k] := by simp [isPlain_of_eq hk]
    exact chunksAt_plain_cut hplain (chunksAt_terminator ht)
  | _, _, @Statement.block _ ts o c _ ho hbody hc, d, rest => by
    simp only [List.cons_append, List.append_assoc, List.nil_append]
    rw [chunksAt_lbrace ho, hbody.chunksAt_eq d, chunksAt_rbrace hc, attach_cut, attach_cut]
    rfl

theorem Body.chunksAt_eq : ∀ {ts body}, Body A ts body → ∀ d rest,
    chunksAt (d + 1) (ts ++ rest) = attach ts (chunksAt (d + 1) rest)
  | _, _, .done, d, rest => rfl
  | _, _, .terminator ht h, d, rest => by
    rw [List.cons_append, chunksAt_terminator ht, cut_inside, h.chunksAt_eq d rest]
    exact (attach_append [_] _ _).symm
  | _, _, .statement hs h, d, rest => by
    rw [List.append_assoc, hs.chunksAt_eq (d + 1), cut_inside, h.chunksAt_eq d rest, attach_append]

end

/-- Terminators and plain tokens inside braces cut nothing. -/
theorem chunksAt_inside (h : ∀ t ∈ ts, isPlain t.kind ∨ t.isTerminator) :
    chunksAt (d + 1) (ts ++ rest) = attach ts (chunksAt (d + 1) rest) := by
  induction ts with
  | nil => rfl
  | cons t ts ih =>
    obtain ⟨ht, hts⟩ := List.forall_mem_cons.mp h
    have hsplit : attach (t :: ts) (chunksAt (d + 1) rest) =
        attach [t] (chunksAt (d + 1) (ts ++ rest)) := by
      rw [ih hts, ← attach_append, List.singleton_append]
    rw [hsplit]
    rcases ht with ht | ht
    · have hplain : Plain [t] := by simp [ht]
      exact chunksAt_plain hplain
    · rw [List.cons_append, chunksAt_terminator ht, cut_inside]

theorem ImageEntry.flat {decl : ImageDecl} (h : ImageEntry ts decl) :
    ∀ t ∈ ts, isPlain t.kind ∨ t.isTerminator := by
  cases h with
  | mk hi ho hr ht => simp [isPlain_of_eq hi, isPlain_of_eq ho, hr, ht]

theorem ValueEntry.flat {value : NamedValue} (h : ValueEntry A ts value) :
    ∀ t ∈ ts, isPlain t.kind ∨ t.isTerminator := by
  cases h with
  | @mk ts o i t e hi ho he ht =>
    have hplain := he.plain
    intro u hu
    simp only [List.mem_cons, List.mem_append, List.not_mem_nil, or_false] at hu
    rcases hu with rfl | rfl | hu | rfl
    · exact .inl (isPlain_of_eq hi)
    · exact .inl (isPlain_of_eq ho)
    · exact .inl (hplain u hu)
    · exact .inr ht

theorem Entries.flat {α : Type} {E : List Token → α → Prop}
    (flat : ∀ {ts a}, E ts a → ∀ t ∈ ts, isPlain t.kind ∨ t.isTerminator) {as : List α}
    (h : Entries E ts as) : ∀ t ∈ ts, isPlain t.kind ∨ t.isTerminator := by
  induction h with
  | done => simp
  | terminator ht _ ih => exact List.forall_mem_cons.mpr ⟨.inr ht, ih⟩
  | entry ha _ ih => exact List.forall_mem_append.mpr ⟨flat ha, ih⟩

private theorem chunksAt_braced {k o c : Token} (hk : isPlain k.kind) (ho : o.kind = .lbrace)
    (h : ∀ t ∈ ts, isPlain t.kind ∨ t.isTerminator) (hc : c.kind = .rbrace) :
    chunksAt d (k :: o :: (ts ++ [c]) ++ rest) = cut d (k :: o :: (ts ++ [c])) rest := by
  have hplain : Plain [k] := by simp [hk]
  refine chunksAt_plain_cut hplain ?_
  simp only [List.cons_append, List.append_assoc, List.nil_append]
  rw [chunksAt_lbrace ho, chunksAt_inside h, chunksAt_rbrace hc, attach_cut, attach_cut]
  rfl

theorem TopStatement.chunksAt_eq {i : Item} (h : TopStatement A ts i) (rest : List Token) :
    chunksAt 0 (ts ++ rest) = cut 0 ts rest := by
  cases h with
  | images hk ho hdecls hc =>
    exact chunksAt_braced (isPlain_of_eq hk) ho (hdecls.flat ImageEntry.flat) hc
  | init hk ho hvalues hc =>
    exact chunksAt_braced (isPlain_of_eq hk) ho (hvalues.flat ValueEntry.flat) hc
  | options hk ho hvalues hc =>
    exact chunksAt_braced (isPlain_of_eq hk) ho (hvalues.flat ValueEntry.flat) hc
  | statement hs => exact hs.chunksAt_eq 0 rest

/-! ### How a statement ends -/

/-- A closing brace ends the tokens, or a terminator after a plain token. -/
def Ends (ts : List Token) : Prop :=
  (∃ pre c, ts = pre ++ [c] ∧ c.kind = .rbrace) ∨
    ∃ pre p t, ts = pre ++ [p, t] ∧ isPlain p.kind ∧ t.isTerminator

theorem Ends.append (h : Ends ts) (xs : List Token) : Ends (xs ++ ts) := by
  rcases h with ⟨pre, c, rfl, hc⟩ | ⟨pre, p, t, rfl, hp, ht⟩
  · exact .inl ⟨xs ++ pre, c, by simp, hc⟩
  · exact .inr ⟨xs ++ pre, p, t, by simp, hp, ht⟩

theorem Ends.terminator (h : Plain (t :: ts)) {u : Token} (hu : u.isTerminator) :
    Ends (t :: ts ++ [u]) := by
  obtain hnil | ⟨pre, p, hlast⟩ := List.eq_nil_or_concat (t :: ts)
  · cases hnil
  · rw [List.concat_eq_append] at hlast
    have hp : p ∈ t :: ts := by simp [hlast]
    exact .inr ⟨pre, p, u, by simp [hlast], h p hp, hu⟩

theorem Ends.rbrace {c : Token} (hc : c.kind = .rbrace) (ts : List Token) : Ends (ts ++ [c]) :=
  .inl ⟨ts, c, rfl, hc⟩

theorem Ends.isClosed_eq (h : Ends ts) : isClosed ts := by
  rcases h with ⟨pre, c, rfl, hc⟩ | ⟨pre, p, t, rfl, -, ht⟩
  · simp [Script.isClosed, hc]
  · simp [Script.isClosed, ht]

/-- What a line end closes was open before it. -/
theorem Ends.not_isClosed {n : Token} (hn : n.kind = .newline) (h : Ends (ts ++ [n])) :
    isClosed ts = false := by
  rcases h with ⟨pre, c, heq, hc⟩ | ⟨pre, p, t, heq, hp, -⟩
  · obtain ⟨-, hnc⟩ := List.append_inj' heq rfl
    rw [List.singleton_inj.mp hnc, hc] at hn
    cases hn
  · have heq' : ts ++ [n] = pre ++ [p] ++ [t] := by rw [heq, List.append_assoc]; rfl
    obtain ⟨rfl, -⟩ := List.append_inj' heq' rfl
    simp only [isPlain, Bool.and_eq_true, decide_eq_true_eq, Bool.not_eq_true'] at hp
    simp [Script.isClosed, Token.isTerminator, hp]

theorem Statement.ends : ∀ {ts s}, Statement A ts s → Ends ts
  | _, _, @Statement.assign _ ts o i _ _ _ hi ho he ht => by
    have hplain : Plain (i :: o :: ts) := by simp [isPlain_of_eq hi, ho, he.plain]
    exact Ends.terminator hplain ht
  | _, _, .cond _ _ hyes => hyes.ends.append (_ :: _)
  | _, _, @Statement.condElse _ ts xs ys o k _ _ _ ends _ _ _ _ _ _ hno => by
    simpa using hno.ends.append (k :: (ts ++ (xs ++ (ends ++ [o]))))
  | _, _, .loop _ _ hbody => hbody.ends.append (_ :: _)
  | _, _, @Statement.foreach _ ts _ o c i k _ _ kin _ _ _ _ _ _ hbody => by
    simpa using hbody.ends.append (k :: o :: i :: kin :: (ts ++ [c]))
  | _, _, @Statement.breakIf _ ts k _ _ hk htest ht => by
    have hplain : Plain (k :: ts) := by simp [isPlain_of_eq hk, htest.plain]
    exact Ends.terminator hplain ht
  | _, _, @Statement.leave _ k _ hk ht => by
    have hplain : Plain [k] := by simp [isPlain_of_eq hk]
    exact Ends.terminator hplain ht
  | _, _, .block _ _ hc => Ends.rbrace hc (_ :: _)

theorem TopStatement.ends {i : Item} (h : TopStatement A ts i) : Ends ts := by
  cases h with
  | images _ _ _ hc | init _ _ _ hc | options _ _ _ hc => exact Ends.rbrace hc (_ :: _ :: _)
  | statement hs => exact hs.ends

/-- Whether a token of this kind may stand first in an item. -/
def opensItem (k : Kind) : Bool := !k.isTerminator && k ≠ .kwElse

theorem TopStatement.head {i : Item} (h : TopStatement A ts i) :
    ∃ t us, ts = t :: us ∧ opensItem t.kind := by
  cases h with
  | images hk _ _ _ | init hk _ _ _ | options hk _ _ _ => exact ⟨_, _, rfl, by rw [hk]; rfl⟩
  | statement hs =>
    obtain ⟨t, us, rfl, ht⟩ := hs.head
    refine ⟨t, us, rfl, ?_⟩
    generalize t.kind = k at ht
    cases k <;> first | rfl | cases ht

/-! ### Whole scripts -/

/-- The chunks that hold more than terminators, each closed as the dialect closes it. -/
def pieces (dialect : Dialect) (ts : List Token) : List (List Token) :=
  ((chunks ts).filter fun chunk => !chunk.all Token.isTerminator).map (closed dialect)

theorem closed_of_isClosed (dialect : Dialect) (h : isClosed ts) : closed dialect ts = ts := by
  simp [closed, h]

theorem TopStatement.not_blank {i : Item} (h : TopStatement A ts i) :
    ts.all Token.isTerminator = false := by
  obtain ⟨t, us, rfl, ht⟩ := h.head
  simp only [opensItem, Bool.and_eq_true, Bool.not_eq_true'] at ht
  simp [Token.isTerminator, ht.1]

theorem Whole.elseFollows_eq {items : List Item} (h : Whole A ts items) :
    elseFollows ts = false := by
  induction h with
  | done => rfl
  | terminator ht _ ih => exact elseFollows_terminator ht ih
  | entry hi _ _ =>
    obtain ⟨t, us, rfl, ht⟩ := hi.head
    simp only [opensItem, Kind.isTerminator, Bool.and_eq_true, Bool.not_eq_true', Bool.or_eq_false_iff,
      decide_eq_true_eq, decide_eq_false_iff_not] at ht
    exact elseFollows_of_ne ht.1.2 ht.2

/-- The chunks of a script that are not blank are the tokens of its items, one by one. -/
theorem Whole.chunks_eq {items : List Item} (h : Whole A ts items) :
    List.Forall₂ (TopStatement A)
      ((chunks ts).filter fun chunk => !chunk.all Token.isTerminator) items := by
  induction h with
  | done => exact .nil
  | @terminator ts t items ht hrest ih =>
    have hcut : chunks (t :: ts) = [t] :: chunks ts := by
      rw [chunks, chunksAt_terminator ht, cut, if_pos ⟨rfl, Whole.elseFollows_eq hrest⟩]
      rfl
    rw [hcut, List.filter_cons_of_neg (by simp [ht])]
    exact ih
  | @entry ts xs i items hi hrest ih =>
    have hcut : chunks (ts ++ xs) = ts :: chunks xs := by
      rw [chunks, hi.chunksAt_eq, cut, if_pos ⟨rfl, Whole.elseFollows_eq hrest⟩]
      rfl
    rw [hcut, List.filter_cons_of_pos (by simp [hi.not_blank])]
    exact .cons hi ih

/-- Chunks that are items or blank make up a script. -/
theorem whole_of_chunks {items : List Item} (cs : List (List Token))
    (h : List.Forall₂ (TopStatement A)
      (cs.filter fun chunk => !chunk.all Token.isTerminator) items) :
    Whole A cs.flatten items := by
  induction cs generalizing items with
  | nil =>
    cases h
    exact .done
  | cons c cs ih =>
    cases hc : c.all Token.isTerminator with
    | true =>
      rw [List.filter_cons_of_neg (by simp [hc])] at h
      have hrest := ih h
      rw [List.flatten_cons]
      rw [List.all_eq_true] at hc
      induction c with
      | nil => exact hrest
      | cons t c ihc =>
        obtain ⟨ht, hc⟩ := List.forall_mem_cons.mp hc
        exact .terminator ht (ihc hc)
    | false =>
      rw [List.filter_cons_of_pos (by simp [hc])] at h
      cases h with
      | cons hi hrest => exact .entry hi (ih hrest)

theorem flatten_chunksAt (d : Nat) (ts : List Token) : (chunksAt d ts).flatten = ts := by
  induction ts generalizing d with
  | nil => rfl
  | cons t ts ih =>
    have hlater := ih (depthAfter d t)
    simp only [chunksAt]
    split
    · simp [hlater]
    · cases hl : chunksAt (depthAfter d t) ts with
      | nil => rw [hl] at hlater; simp [← hlater]
      | cons c cs => rw [hl] at hlater; simp [← hlater]

theorem ne_nil_of_mem_chunksAt {c : List Token} (hc : c ∈ chunksAt d ts) : c ≠ [] := by
  induction ts generalizing d c with
  | nil => cases hc
  | cons t ts ih =>
    simp only [chunksAt] at hc
    split at hc
    · rcases List.mem_cons.mp hc with rfl | hc
      · exact List.cons_ne_nil t []
      · exact ih hc
    · cases hl : chunksAt (depthAfter d t) ts with
      | nil =>
        rw [hl, List.mem_singleton] at hc
        simp [hc]
      | cons first later =>
        rw [hl] at hc
        rcases List.mem_cons.mp hc with rfl | hc
        · exact List.cons_ne_nil t first
        · exact ih (hl ▸ List.mem_cons_of_mem first hc)

/-- Every chunk but the last is closed. -/
theorem isClosed_of_mem_dropLast (d : Nat) (ts : List Token) {c : List Token}
    (hc : c ∈ (chunksAt d ts).dropLast) : isClosed c := by
  induction ts generalizing d c with
  | nil => simp [chunksAt] at hc
  | cons t ts ih =>
    simp only [chunksAt] at hc
    split at hc
    · next hcut =>
      have ht : endsItem d t := by simp_all
      have hclosed : isClosed [t] := by
        cases hk : t.kind <;> simp [endsItem, hk] at ht <;>
          simp [isClosed, Token.isTerminator, Kind.isTerminator, hk]
      cases hl : chunksAt (depthAfter d t) ts with
      | nil => simp [hl] at hc
      | cons first later =>
        rw [hl, List.dropLast_cons_of_ne_nil (List.cons_ne_nil _ _), List.mem_cons, ← hl] at hc
        rcases hc with rfl | hc
        · exact hclosed
        · exact ih _ hc
    · cases hl : chunksAt (depthAfter d t) ts with
      | nil => simp [hl] at hc
      | cons first later =>
        simp only [hl] at hc
        cases later with
        | nil => simp at hc
        | cons second later =>
          have hfirst : isClosed first := ih (depthAfter d t) (by simp [hl])
          rw [List.dropLast_cons_of_ne_nil (List.cons_ne_nil _ _), List.mem_cons] at hc
          rcases hc with rfl | hc
          · cases first with
            | nil => simp [isClosed] at hfirst
            | cons u first => simpa [isClosed, List.getLast?_cons] using hfirst
          · exact ih (depthAfter d t) (by
              rw [hl, List.dropLast_cons_of_ne_nil (List.cons_ne_nil _ _)]
              exact List.mem_cons_of_mem _ hc)

theorem elseFollows_concat {n : Token} (hn : n.kind = .newline) :
    elseFollows (ts ++ [n]) = elseFollows ts := by
  simp [elseFollows, List.find?_append, hn]

/-- A line end after the last token is a chunk of its own or joins the last chunk. -/
theorem chunksAt_concat {n : Token} (hn : n.kind = .newline) (d : Nat) (ts : List Token) :
    chunksAt d (ts ++ [n]) = chunksAt d ts ++ [[n]] ∨
      ∃ cs c, chunksAt d ts = cs ++ [c] ∧ chunksAt d (ts ++ [n]) = cs ++ [c ++ [n]] := by
  induction ts generalizing d with
  | nil =>
    left
    simp [chunksAt]
  | cons t ts ih =>
    have hlater := ih (depthAfter d t)
    simp only [List.cons_append, chunksAt, elseFollows_concat hn]
    split
    · rcases hlater with hlater | ⟨cs, c, hshort, hlong⟩
      · exact .inl (by rw [hlater]; rfl)
      · exact .inr ⟨[t] :: cs, c, by rw [hshort]; rfl, by rw [hlong]; rfl⟩
    · rcases hlater with hlater | ⟨cs, c, hshort, hlong⟩
      · rw [hlater]
        cases chunksAt (depthAfter d t) ts with
        | nil => exact .inr ⟨[], [t], rfl, rfl⟩
        | cons c cs => exact .inl rfl
      · rw [hshort, hlong]
        cases cs with
        | nil => exact .inr ⟨[], t :: c, rfl, rfl⟩
        | cons first cs => exact .inr ⟨(t :: first) :: cs, c, rfl, rfl⟩

private theorem endOf_append (xs : List Token) {c : List Token} (hc : c ≠ []) :
    endOf (xs ++ c) = endOf c := by
  obtain rfl | ⟨pre, t, rfl⟩ := List.eq_nil_or_concat c
  · exact absurd rfl hc
  · simp [endOf]

private theorem ends_of_mem {cs : List (List Token)} {items : List Item}
    (h : List.Forall₂ (TopStatement A) cs items) : ∀ c ∈ cs, Ends c := by
  induction h with
  | nil => simp
  | cons hi _ ih => exact List.forall_mem_cons.mpr ⟨hi.ends, ih⟩

private theorem map_closed_eq {dialect : Dialect} {cs : List (List Token)}
    (h : ∀ c ∈ cs, isClosed c) : cs.map (closed dialect) = cs := by
  induction cs with
  | nil => rfl
  | cons c cs ih =>
    obtain ⟨hc, hcs⟩ := List.forall_mem_cons.mp h
    rw [List.map_cons, closed_of_isClosed dialect hc, ih hcs]

/-- Closing a chunk leaves it blank or not. -/
theorem closed_all (dialect : Dialect) (c : List Token) :
    (closed dialect c).all Token.isTerminator = c.all Token.isTerminator := by
  unfold closed
  split
  · simp [Token.isTerminator, Kind.isTerminator]
  · rfl

/-- Only the last chunk may have to be closed. -/
theorem pieces_eq {dialect : Dialect} {cs : List (List Token)} {c : List Token}
    (h : chunks ts = cs ++ [c]) :
    pieces dialect ts =
      (cs ++ [closed dialect c]).filter fun chunk => !chunk.all Token.isTerminator := by
  have hcs : cs.map (closed dialect) = cs := by
    refine map_closed_eq fun chunk hchunk => isClosed_of_mem_dropLast 0 ts ?_
    rwa [show chunksAt 0 ts = cs ++ [c] from h, List.dropLast_concat]
  have hblank : (fun chunk : List Token => !chunk.all Token.isTerminator) ∘ closed dialect =
      fun chunk => !chunk.all Token.isTerminator := by
    funext chunk
    simp only [Function.comp_apply, closed_all]
  have hmap : pieces dialect ts =
      ((chunks ts).map (closed dialect)).filter fun chunk => !chunk.all Token.isTerminator := by
    rw [List.filter_map, hblank, pieces]
  rw [hmap, h, List.map_append, hcs, List.map_singleton]

/-- A script that the end of the text closes: its last piece gets the line end. -/
theorem pieces_concat {dialect : Dialect} {items : List Item} (hdialect : dialect.endTerminates)
    (h : Whole A (ts ++ [endLine ts]) items) :
    List.Forall₂ (TopStatement A) (pieces dialect ts) items := by
  have hitems := Whole.chunks_eq h
  have hends := ends_of_mem hitems
  obtain hsplit | ⟨cs, c, hshort, hlong⟩ := chunksAt_concat (n := endLine ts) rfl 0 ts
  · have hblank : [[endLine ts]].filter (fun chunk => !chunk.all Token.isTerminator) = [] := rfl
    rw [chunks, hsplit, List.filter_append, hblank, List.append_nil] at hitems hends
    rw [pieces, chunks, map_closed_eq fun c hc => (hends c hc).isClosed_eq]
    exact hitems
  · rw [pieces_eq hshort]
    rw [chunks, hlong] at hitems hends
    suffices hsame : (cs ++ [closed dialect c]).filter (fun chunk => !chunk.all Token.isTerminator) =
        (cs ++ [c ++ [endLine ts]]).filter fun chunk => !chunk.all Token.isTerminator by
      rw [hsame]
      exact hitems
    have hline : (c ++ [endLine ts]).all Token.isTerminator = c.all Token.isTerminator := by
      simp [endLine, Token.isTerminator, Kind.isTerminator]
    rw [List.filter_append, List.filter_append, List.filter_singleton, List.filter_singleton,
      closed_all, hline]
    cases hc : c.all Token.isTerminator with
    | true => rfl
    | false =>
      have hopen : isClosed c = false := by
        refine Ends.not_isClosed (n := endLine ts) rfl (hends _ ?_)
        simp [List.mem_filter, hline, hc]
      have hend : endOf ts = endOf c := by
        rw [← flatten_chunksAt 0 ts, hshort, List.flatten_append, List.flatten_singleton]
        refine endOf_append _ ?_
        rintro rfl
        simp at hc
      simp [closed, hdialect, hopen, endLine, hend]

/-- Tokens are a script of the dialect if and only if their pieces are its items. -/
theorem inDialect_iff {dialect : Dialect} {items : List Item} :
    InDialect A dialect ts items ↔ List.Forall₂ (TopStatement A) (pieces dialect ts) items := by
  constructor
  · rintro (h | ⟨hdialect, h⟩)
    · have hitems := Whole.chunks_eq h
      rwa [pieces, map_closed_eq fun c hc => (ends_of_mem hitems c hc).isClosed_eq]
    · exact pieces_concat hdialect h
  · intro h
    have hflat := flatten_chunksAt 0 ts
    obtain hnil | ⟨cs, c, hlast⟩ := List.eq_nil_or_concat (chunks ts)
    · rw [pieces, hnil] at h
      cases h
      rw [show chunksAt 0 ts = [] from hnil] at hflat
      subst hflat
      exact .inl .done
    · rw [List.concat_eq_append] at hlast
      rw [pieces_eq hlast] at h
      have hwhole := whole_of_chunks _ h
      rw [show chunksAt 0 ts = cs ++ [c] from hlast, List.flatten_append,
        List.flatten_singleton] at hflat
      rw [List.flatten_append, List.flatten_singleton] at hwhole
      have hne : c ≠ [] := ne_nil_of_mem_chunksAt (hlast ▸ List.mem_concat_self)
      cases hopen : dialect.endTerminates && !isClosed c with
      | false =>
        left
        rwa [closed, hopen, if_neg Bool.false_ne_true, hflat] at hwhole
      | true =>
        right
        obtain ⟨hdialect, hc⟩ := Bool.and_eq_true_iff.mp hopen
        have hline : closed dialect c = c ++ [endLine ts] := by
          rw [closed, hopen, if_pos rfl, endLine, ← hflat, endOf_append _ hne]
        rw [hline, ← List.append_assoc, hflat] at hwhole
        exact ⟨hdialect, hwhole⟩

end RasterScript.Script.Derivation
