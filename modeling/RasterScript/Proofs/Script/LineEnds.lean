import RasterScript.Proofs.Script.Acceptance

/-! Line ends after `;`, `{` and `}` change nothing: tokens derive the same trees with them as
without. -/
namespace RasterScript.Script.Derivation

open Token (Kind)

variable {A : Groups} {ts xs ys rest ls : List Token} {t : Token}

/-- Whether a line may end after a token of this kind. -/
def endsLine (k : Kind) : Bool := k = .semicolon || k = .lbrace || k = .rbrace

/-- `Spaced free ts ls`: the tokens `ls` are `ts` with line ends after tokens that may end a line,
and, where `free` says so, before the first token. -/
inductive Spaced : Bool → List Token → List Token → Prop where
  | done {free} : Spaced free [] []
  | lineEnd {n ts ls} : n.kind = .newline → Spaced true ts ls → Spaced true ts (n :: ls)
  | token {free t ts ls} : t.kind ≠ .newline → Spaced (endsLine t.kind) ts ls →
      Spaced free (t :: ts) (t :: ls)

/-- Nothing but line ends. -/
def LineEnds (ts : List Token) : Prop := ∀ n ∈ ts, n.kind = .newline

theorem isTerminator_of_newline {n : Token} (h : n.kind = .newline) : n.isTerminator := by
  rw [Token.isTerminator, h]
  rfl

namespace Spaced

theorem kind_ne {free : Bool} (h : Spaced free ts ls) : ∀ t ∈ ts, t.kind ≠ .newline := by
  induction h with
  | done => simp
  | lineEnd _ _ ih => exact ih
  | token ht _ ih => exact List.forall_mem_cons.mpr ⟨ht, ih⟩

/-- The line ends before the first token can be taken off. -/
theorem strip {free : Bool} (h : Spaced free ts ls) :
    ∃ ends more, ls = ends ++ more ∧ LineEnds ends ∧ Spaced false ts more := by
  induction h with
  | done => exact ⟨[], [], rfl, by simp [LineEnds], .done⟩
  | @lineEnd n ts ls hn _ ih =>
    obtain ⟨ends, more, rfl, hends, hmore⟩ := ih
    exact ⟨n :: ends, more, rfl, List.forall_mem_cons.mpr ⟨hn, hends⟩, hmore⟩
  | @token free t ts ls ht h _ => exact ⟨[], t :: ls, rfl, by simp [LineEnds], .token ht h⟩

theorem uncons (h : Spaced false (t :: ts) ls) :
    ∃ more, ls = t :: more ∧ Spaced (endsLine t.kind) ts more := by
  cases h with
  | token _ h => exact ⟨_, rfl, h⟩

theorem uncons_brace (ht : t.kind = .lbrace ∨ t.kind = .rbrace) (h : Spaced false (t :: ts) ls) :
    ∃ more, ls = t :: more ∧ Spaced true ts more := by
  obtain ⟨more, rfl, hmore⟩ := h.uncons
  have hends : endsLine t.kind = true := by rcases ht with ht | ht <;> simp [endsLine, ht]
  exact ⟨more, rfl, hends ▸ hmore⟩

theorem uncons_terminator (ht : t.isTerminator) (h : Spaced false (t :: ts) ls) :
    ∃ more, ls = t :: more ∧ Spaced true ts more := by
  have hk : t.kind = .semicolon := by
    have hline := h.kind_ne t (by simp)
    simpa [Token.isTerminator, Kind.isTerminator, hline] using ht
  obtain ⟨more, rfl, hmore⟩ := h.uncons
  exact ⟨more, rfl, by simpa [endsLine, hk] using hmore⟩

/-- No line ends among plain tokens. -/
theorem plain (hts : Plain ts) (h : Spaced false (ts ++ rest) ls) :
    ∃ more, ls = ts ++ more ∧ Spaced false rest more := by
  induction ts generalizing ls with
  | nil => exact ⟨ls, rfl, h⟩
  | cons t ts ih =>
    obtain ⟨ht, hts⟩ := plain_cons.mp hts
    obtain ⟨tail, rfl, htail⟩ := h.uncons
    have hends : endsLine t.kind = false := by
      cases hk : t.kind <;> first | rfl | simp [hk, isPlain, Kind.isTerminator] at ht
    obtain ⟨more, rfl, hmore⟩ := ih hts (hends ▸ htail)
    exact ⟨more, rfl, hmore⟩

end Spaced

/-! ### What line ends leave as it is -/

/-- With line ends put in, the tokens become some that `P` holds of, and a line may end there. -/
def Splits (ts : List Token) (P : List Token → Prop) : Prop :=
  ∀ rest ls, Spaced false (ts ++ rest) ls →
    ∃ us more, ls = us ++ more ∧ P us ∧ Spaced true rest more

/-- With line ends put in, also before and after, the tokens become some that `P` holds of. -/
def Fills (ts : List Token) (P : List Token → Prop) : Prop :=
  ∀ free rest ls, Spaced free (ts ++ rest) ls →
    ∃ us more, ls = us ++ more ∧ P us ∧ Spaced false rest more

variable {P Q R : List Token → Prop}

theorem Splits.mono (h : Splits ts P) (hPQ : ∀ us, P us → Q us) : Splits ts Q := by
  intro rest ls hls
  obtain ⟨us, more, rfl, hus, hmore⟩ := h rest ls hls
  exact ⟨us, more, rfl, hPQ us hus, hmore⟩

/-- A line of plain tokens stays whole. -/
theorem Splits.line (hts : Plain ts) (ht : t.isTerminator) :
    Splits (ts ++ [t]) (· = ts ++ [t]) := by
  intro rest ls hls
  rw [List.append_assoc] at hls
  obtain ⟨tail, rfl, htail⟩ := hls.plain hts
  obtain ⟨more, rfl, hmore⟩ := htail.uncons_terminator ht
  exact ⟨ts ++ [t], more, by simp, rfl, hmore⟩

theorem Splits.after (hts : Plain ts) (h : Splits xs P) :
    Splits (ts ++ xs) fun us => ∃ vs, us = ts ++ vs ∧ P vs := by
  intro rest ls hls
  rw [List.append_assoc] at hls
  obtain ⟨tail, rfl, htail⟩ := hls.plain hts
  obtain ⟨us, more, rfl, hus, hmore⟩ := h rest tail htail
  exact ⟨ts ++ us, more, by simp, ⟨us, rfl, hus⟩, hmore⟩

/-- The line ends that come to stand before an `else` are the ones that may stand there. -/
theorem Splits.orElse {o : Token} {ends : List Token} (hends : LineEnds ends)
    (ho : o.kind = .kwElse) (hyes : Splits xs P) (hno : Splits ys Q) :
    Splits (xs ++ (ends ++ o :: ys)) fun us =>
      ∃ vs lines ws, us = vs ++ (lines ++ o :: ws) ∧ P vs ∧ LineEnds lines ∧ Q ws := by
  intro rest ls hls
  rw [List.append_assoc, List.append_assoc] at hls
  obtain ⟨vs, tail, rfl, hvs, htail⟩ := hyes _ _ hls
  have hnone : ends = [] := List.eq_nil_iff_forall_not_mem.mpr fun n hn =>
    htail.kind_ne n (by simp [hn]) (hends n hn)
  subst hnone
  obtain ⟨lines, onward, rfl, hlines, honward⟩ := htail.strip
  have helse : Plain [o] := by simp [isPlain_of_eq ho]
  obtain ⟨us, more, rfl, ⟨ws, rfl, hws⟩, hmore⟩ := (hno.after helse) rest onward honward
  exact ⟨vs ++ (lines ++ o :: ws), more, by simp, ⟨vs, lines, ws, rfl, hvs, hlines, hws⟩, hmore⟩

theorem Splits.braced {o c : Token} (ho : o.kind = .lbrace) (hc : c.kind = .rbrace)
    (h : Fills ts P) : Splits (o :: (ts ++ [c])) fun us => ∃ vs, us = o :: (vs ++ [c]) ∧ P vs := by
  intro rest ls hls
  rw [List.cons_append, List.append_assoc] at hls
  obtain ⟨tail, rfl, htail⟩ := hls.uncons_brace (.inl ho)
  obtain ⟨vs, onward, rfl, hvs, honward⟩ := h _ _ _ htail
  obtain ⟨more, rfl, hmore⟩ := honward.uncons_brace (.inr hc)
  exact ⟨o :: (vs ++ [c]), more, by simp, ⟨vs, rfl, hvs⟩, hmore⟩

theorem Fills.nil (hP : ∀ ends, LineEnds ends → P ends) : Fills [] P := by
  intro free rest ls hls
  obtain ⟨ends, more, rfl, hends, hmore⟩ := hls.strip
  exact ⟨ends, more, rfl, hP ends hends, hmore⟩

theorem Fills.terminator (ht : t.isTerminator) (h : Fills ts P)
    (hQ : ∀ ends us, LineEnds ends → P us → Q (ends ++ t :: us)) : Fills (t :: ts) Q := by
  intro free rest ls hls
  obtain ⟨ends, tail, rfl, hends, htail⟩ := hls.strip
  obtain ⟨onward, rfl, honward⟩ := htail.uncons_terminator ht
  obtain ⟨us, more, rfl, hus, hmore⟩ := h _ _ _ honward
  exact ⟨ends ++ t :: us, more, by simp, hQ ends us hends hus, hmore⟩

theorem Splits.append (hts : Splits ts P) (hxs : Fills xs Q)
    (hR : ∀ ends us vs, LineEnds ends → P us → Q vs → R (ends ++ (us ++ vs))) :
    Fills (ts ++ xs) R := by
  intro free rest ls hls
  obtain ⟨ends, tail, rfl, hends, htail⟩ := hls.strip
  rw [List.append_assoc] at htail
  obtain ⟨us, onward, rfl, hus, honward⟩ := hts _ _ htail
  obtain ⟨vs, more, rfl, hvs, hmore⟩ := hxs _ _ _ honward
  exact ⟨ends ++ (us ++ vs), more, by simp, hR ends us vs hends hus hvs, hmore⟩

/-! ### Statements and scripts -/

/-- What may start with terminators may start with line ends. -/
theorem LineEnds.absorb (P : List Token → Prop)
    (hP : ∀ n us, n.isTerminator → P us → P (n :: us)) {ends : List Token} (hends : LineEnds ends)
    (h : P ts) : P (ends ++ ts) := by
  induction ends with
  | nil => exact h
  | cons n ends ih =>
    obtain ⟨hn, hends⟩ := List.forall_mem_cons.mp hends
    apply hP
    · exact isTerminator_of_newline hn
    · exact ih hends

theorem Body.lineEnds {ends : List Token} {body : List Stmt} (hends : LineEnds ends)
    (h : Body A ts body) : Body A (ends ++ ts) body :=
  hends.absorb (Body A · body) (fun _ _ => .terminator) h

theorem Entries.lineEnds {α : Type} {E : List Token → α → Prop} {ends : List Token} {as : List α}
    (hends : LineEnds ends) (h : Entries E ts as) : Entries E (ends ++ ts) as :=
  hends.absorb (Entries E · as) (fun _ _ => .terminator) h

mutual

theorem Statement.splits : ∀ {ts s}, Statement A ts s → Splits ts (Statement A · s)
  | _, _, @Statement.assign _ ts o i _ _ _ hi ho he ht => by
    have hplain : Plain (i :: o :: ts) := by simp [isPlain_of_eq hi, ho, he.plain]
    refine (Splits.line hplain ht).mono ?_
    rintro _ rfl
    exact .assign hi ho he ht
  | _, _, @Statement.cond _ ts _ k _ _ hk htest hyes => by
    have hplain : Plain (k :: ts) := by simp [isPlain_of_eq hk, htest.plain]
    refine (hyes.splits.after hplain).mono ?_
    rintro _ ⟨us, rfl, hyes⟩
    exact .cond hk htest hyes
  | _, _, @Statement.condElse _ ts _ _ _ k _ _ _ _ hk htest hyes hopen hends ho hno => by
    have hplain : Plain (k :: ts) := by simp [isPlain_of_eq hk, htest.plain]
    refine ((hyes.splits.orElse hends ho hno.splits).after hplain).mono ?_
    rintro _ ⟨_, rfl, us, lines, vs, rfl, hyes, hlines, hno⟩
    exact .condElse hk htest hyes hopen hlines ho hno
  | _, _, @Statement.loop _ ts _ k _ _ _ hk htest hbody => by
    have hplain : Plain (k :: ts) := by simp [hk, htest.plain]
    refine (hbody.splits.after hplain).mono ?_
    rintro _ ⟨us, rfl, hbody⟩
    exact .loop hk htest hbody
  | _, _, @Statement.foreach _ ts xs o c i k _ _ kin hk ho hi hin hsource hc hbody => by
    have hplain : Plain (k :: o :: i :: kin :: (ts ++ [c])) := by
      simp [isPlain_of_eq hk, isPlain_of_eq ho, isPlain_of_eq hi, isPlain_of_eq hin,
        hsource.plain, isPlain_of_eq hc]
    have hlist : k :: o :: i :: kin :: (ts ++ c :: xs) =
        k :: o :: i :: kin :: (ts ++ [c]) ++ xs := by simp
    rw [hlist]
    refine (hbody.splits.after hplain).mono ?_
    rintro _ ⟨us, rfl, hbody⟩
    simpa using Statement.foreach hk ho hi hin hsource hc hbody
  | _, _, @Statement.breakIf _ ts k _ _ hk htest ht => by
    have hplain : Plain (k :: ts) := by simp [isPlain_of_eq hk, htest.plain]
    refine (Splits.line hplain ht).mono ?_
    rintro _ rfl
    exact .breakIf hk htest ht
  | _, _, @Statement.leave _ k _ hk ht => by
    have hplain : Plain [k] := by simp [isPlain_of_eq hk]
    refine (Splits.line hplain ht).mono ?_
    rintro _ rfl
    exact .leave hk ht
  | _, _, .block ho hbody hc => by
    refine (Splits.braced ho hc hbody.fills).mono ?_
    rintro _ ⟨us, rfl, hbody⟩
    exact .block ho hbody hc

theorem Body.fills : ∀ {ts body}, Body A ts body → Fills ts (Body A · body)
  | _, _, .done => .nil fun ends hends => by simpa using Body.lineEnds hends .done
  | _, _, .terminator ht h =>
    h.fills.terminator ht fun _ _ hends h => Body.lineEnds hends (.terminator ht h)
  | _, _, .statement hs h =>
    hs.splits.append h.fills fun _ _ _ hends hs h => Body.lineEnds hends (.statement hs h)

end

/-- Entries are filled with line ends where each entry splits off whole. -/
theorem Entries.fills {α : Type} {E : List Token → α → Prop} {as : List α} (h : Entries E ts as)
    (hE : ∀ ts a, E ts a → Splits ts (E · a)) : Fills ts (Entries E · as) := by
  induction h with
  | done => exact .nil fun ends hends => by simpa using Entries.lineEnds hends .done
  | terminator ht _ ih =>
    exact ih.terminator ht fun _ _ hends h => Entries.lineEnds hends (.terminator ht h)
  | entry ha _ ih =>
    exact (hE _ _ ha).append ih fun _ _ _ hends ha h => Entries.lineEnds hends (.entry ha h)

theorem ImageEntry.splits {decl : ImageDecl} (h : ImageEntry ts decl) :
    Splits ts (ImageEntry · decl) := by
  cases h with
  | @mk i o r t role hi ho hr ht =>
    have hplain : Plain [i, o, r] := by simp [isPlain_of_eq hi, isPlain_of_eq ho, hr]
    refine (Splits.line hplain ht).mono ?_
    rintro _ rfl
    exact .mk hi ho hr ht

theorem ValueEntry.splits {value : NamedValue} (h : ValueEntry A ts value) :
    Splits ts (ValueEntry A · value) := by
  cases h with
  | @mk ts o i t e hi ho he ht =>
    have hplain : Plain (i :: o :: ts) := by simp [isPlain_of_eq hi, isPlain_of_eq ho, he.plain]
    refine (Splits.line hplain ht).mono ?_
    rintro _ rfl
    exact .mk hi ho he ht

/-- A block of entries after its keyword. -/
theorem Entries.splits {α : Type} {E : List Token → α → Prop} {as : List α} (h : Entries E ts as)
    (hE : ∀ ts a, E ts a → Splits ts (E · a)) {k o c : Token} (hk : isPlain k.kind)
    (ho : o.kind = .lbrace) (hc : c.kind = .rbrace) :
    Splits (k :: o :: (ts ++ [c])) fun us => ∃ vs, us = k :: o :: (vs ++ [c]) ∧ Entries E vs as := by
  have hplain : Plain [k] := by simp [hk]
  refine ((Splits.braced ho hc (h.fills hE)).after hplain).mono ?_
  rintro _ ⟨_, rfl, vs, rfl, hvs⟩
  exact ⟨vs, rfl, hvs⟩

theorem TopStatement.splits {i : Item} (h : TopStatement A ts i) :
    Splits ts (TopStatement A · i) := by
  cases h with
  | images hk ho hdecls hc =>
    refine (hdecls.splits (fun _ _ => ImageEntry.splits) (isPlain_of_eq hk) ho hc).mono ?_
    rintro _ ⟨us, rfl, hdecls⟩
    exact .images hk ho hdecls hc
  | init hk ho hvalues hc =>
    refine (hvalues.splits (fun _ _ => ValueEntry.splits) (isPlain_of_eq hk) ho hc).mono ?_
    rintro _ ⟨us, rfl, hvalues⟩
    exact .init hk ho hvalues hc
  | options hk ho hvalues hc =>
    refine (hvalues.splits (fun _ _ => ValueEntry.splits) (isPlain_of_eq hk) ho hc).mono ?_
    rintro _ ⟨us, rfl, hvalues⟩
    exact .options hk ho hvalues hc
  | statement hs => exact hs.splits.mono fun _ hs => .statement hs

/-- A script stays the same script with line ends put where a line may end. -/
theorem Whole.spaced {free : Bool} {items : List Item} (h : Whole A ts items)
    (hls : Spaced free ts ls) : Whole A ls items := by
  rw [← List.append_nil ts] at hls
  obtain ⟨us, more, rfl, hitems, hmore⟩ := h.fills (fun _ _ => TopStatement.splits) free [] ls hls
  cases hmore
  rw [List.append_nil]
  exact hitems

end RasterScript.Script.Derivation
