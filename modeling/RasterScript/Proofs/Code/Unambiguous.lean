import Mathlib
import RasterScript.Proofs.Code.Openings

/-! The text of an expression determines it. Every part ends where a bracket, a comma or a space
follows, so the text tells where it ends; that carries the induction on expressions. -/
namespace RasterScript.Code

open Token (isWordChar isWordStart)

/-! ### What a text determines -/

/-- A text tells where it ends and what it is the text of. -/
def Determined {α : Type} (text : α → List Char) (ok : α → Prop) (a : α) : Prop :=
  ∀ a' rest rest', ok a' → Ends rest → Ends rest' → text a ++ rest = text a' ++ rest' →
    a = a' ∧ rest = rest'

section Joined

variable {α : Type} (text : α → List Char)

/-- Texts with commas between them. -/
def joined (as : List α) : List Char := [',', ' '].intercalate (as.map text)

/-- Texts with commas before them. -/
def more (as : List α) : List Char := as.flatMap fun a => ',' :: ' ' :: text a

private theorem joined_cons (a : α) (as : List α) :
    joined text (a :: as) = text a ++ more text as := by
  induction as generalizing a with
  | nil => simp [joined, more]
  | cons b as ih =>
    have hnext := ih b
    simp only [joined, more, List.map_cons, List.flatMap_cons] at hnext ⊢
    rw [List.intercalate_cons_cons, hnext]
    simp

variable {text} {ok : α → Prop} {close : Char} (hclose : close = ')' ∨ close = ']')
  {as as' : List α} {rest rest' : List Char}

include hclose

private theorem ends_more (as : List α) (rest : List Char) :
    Ends (more text as ++ close :: rest) := by
  cases as with
  | nil => exact ends_cons (by rcases hclose with rfl | rfl <;> decide) rest
  | cons a as => exact ends_cons (by decide) _

private theorem more_determined (has : ∀ a ∈ as, Determined text ok a) (hok' : ∀ a ∈ as', ok a)
    (h : more text as ++ close :: rest = more text as' ++ close :: rest') :
    as = as' ∧ rest = rest' := by
  have hcomma : close ≠ ',' := by rcases hclose with rfl | rfl <;> decide
  induction as generalizing as' with
  | nil =>
    cases as' with
    | nil => exact ⟨rfl, (List.cons.inj h).2⟩
    | cons a' as' => exact absurd (List.cons.inj h).1 hcomma
  | cons a as ih =>
    cases as' with
    | nil => exact absurd (List.cons.inj h).1.symm hcomma
    | cons a' as' =>
      obtain ⟨ha, has⟩ := List.forall_mem_cons.mp has
      obtain ⟨ha', has'⟩ := List.forall_mem_cons.mp hok'
      simp only [more, List.flatMap_cons, List.cons_append, List.append_assoc, List.cons.injEq,
        true_and] at h
      obtain ⟨rfl, hmore⟩ := ha _ _ _ ha' (ends_more hclose as rest) (ends_more hclose as' rest') h
      obtain ⟨rfl, hrest⟩ := ih has has' hmore
      exact ⟨rfl, hrest⟩

/-- So do texts with commas between them and a bracket after them, if none starts like one. -/
theorem joined_determined (hstart : ∀ a, ok a → ∃ d ds, text a = d :: ds ∧ d ∉ [')', ']'])
    (hok : ∀ a ∈ as, ok a) (has : ∀ a ∈ as, Determined text ok a) (hok' : ∀ a ∈ as', ok a)
    (h : joined text as ++ close :: rest = joined text as' ++ close :: rest') :
    as = as' ∧ rest = rest' := by
  have hempty : ∀ {a : α} {as : List α} {rest rest' : List Char}, ok a →
      joined text (a :: as) ++ close :: rest ≠ close :: rest' := by
    intro a as rest rest' ha heq
    obtain ⟨d, ds, htext, hd⟩ := hstart a ha
    rw [joined_cons, htext] at heq
    obtain ⟨rfl, -⟩ := List.cons.inj heq
    exact hd (by simpa using hclose)
  cases as with
  | nil =>
    cases as' with
    | nil => exact ⟨rfl, (List.cons.inj h).2⟩
    | cons a' as' => exact absurd h.symm (hempty (hok' a' List.mem_cons_self))
  | cons a as =>
    cases as' with
    | nil => exact absurd h (hempty (hok a List.mem_cons_self))
    | cons a' as' =>
      obtain ⟨ha, has⟩ := List.forall_mem_cons.mp has
      obtain ⟨ha', has'⟩ := List.forall_mem_cons.mp hok'
      rw [joined_cons, joined_cons, List.append_assoc, List.append_assoc] at h
      obtain ⟨rfl, hmore⟩ := ha _ _ _ ha' (ends_more hclose as rest) (ends_more hclose as' rest') h
      obtain ⟨rfl, hrest⟩ := more_determined hclose has has' hmore
      exact ⟨rfl, hrest⟩

end Joined

/-! ### Numbers, slots and names -/

section Leaves

variable {c : Code}

/-- An expression that its text determines. -/
def Expr.IsDetermined (c : Code) (e : Expr) : Prop :=
  Determined c.exprChars (fun e => c.Named e.references) e

private theorem const_determined (v : Float) : (Expr.const v).IsDetermined c := by
  intro e' rest rest' he' hrest hrest' h
  have he : c.Named (Expr.const v).references := fun _ hr => absurd hr List.not_mem_nil
  obtain ⟨hshape, hlead, htail⟩ := start_eq he he' hrest hrest' h
  cases e' with
  | const w => exact ⟨congrArg _ (Number.plain_injective (String.toList_inj.mp hlead)), htail⟩
  | load | read | position | unary | binary | select | call | statistic => cases hshape

/-- The number of a slot ends where its digits do. -/
theorem slot_number_inj {letter letter' : Char} {i j : ℕ} {rest rest' : List Char}
    (hrest : Ends rest) (hrest' : Ends rest')
    (h : letter :: (Nat.toDigits 10 i ++ rest) = letter' :: (Nat.toDigits 10 j ++ rest')) :
    letter = letter' ∧ i = j ∧ rest = rest' := by
  have hdigit : ∀ {rest : List Char}, Ends rest → ∀ d, rest.head? = some d → d.isDigit = false := by
    intro rest hrest d hd
    cases hisDigit : d.isDigit with
    | false => rfl
    | true =>
      have hlead := hrest.not_isLead d hd
      rw [isLead_of_isWordChar (Token.isWordChar_of_isDigit hisDigit)] at hlead
      cases hlead
  obtain ⟨hletter, hdigits⟩ := List.cons.inj h
  obtain ⟨hsame, hrests⟩ := runs_eq (Number.Decimal.allDigits_toDigits i)
    (Number.Decimal.allDigits_toDigits j) (hdigit hrest) (hdigit hrest') hdigits
  refine ⟨hletter, ?_, hrests⟩
  rw [← Number.Decimal.natOfDigits_toDigits i, hsame, Number.Decimal.natOfDigits_toDigits]

private theorem load_determined {slot : Slot} (he : c.Named (Expr.load slot).references) :
    (Expr.load slot).IsDetermined c := by
  intro e' rest rest' he' hrest hrest' h
  obtain ⟨hshape, -, htail⟩ := start_eq he he' hrest hrest' h
  cases e' with
  | load slot' =>
    cases slot <;> cases slot' <;>
      obtain ⟨hletter, rfl, hrests⟩ := slot_number_inj hrest hrest' (List.cons.inj htail).2
    · exact ⟨rfl, hrests⟩
    · cases hletter
    · cases hletter
    · exact ⟨rfl, hrests⟩
  | const | read | position | unary | binary | select | call | statistic => cases hshape

/-- The first character of an expression. -/
theorem exprChars_cons {e : Expr} (he : c.Named e.references) :
    ∃ d ds, c.exprChars e = d :: ds ∧ d ∉ ['$', '+', '!', ')', ']', '['] := by
  have hall : ['$', '+', '!', ')', ']', '['].all (fun d => !isLead d) = true := by decide
  rcases hlead : e.lead c with _ | ⟨d, ds⟩
  · rcases lead_cases he with ⟨v, rfl⟩ | hword | ⟨-, hgroup⟩
    · have htext := Number.plainText v
      rw [show (Number.plain v).toList = [] from hlead] at htext
      cases htext
    · exact absurd hlead hword.1
    · obtain ⟨ds, htail⟩ := tail_group (c := c) hgroup
      exact ⟨'(', ds, by rw [exprChars_eq, hlead, htail, List.nil_append], by decide⟩
  · have hd := isLead_lead he d (hlead ▸ List.mem_cons_self)
    refine ⟨d, ds ++ e.tail c, by rw [exprChars_eq, hlead, List.cons_append], fun hmem => ?_⟩
    have hnot := List.all_eq_true.mp hall d hmem
    rw [hd] at hnot
    cases hnot

private theorem exprChars_ne {e : Expr} (he : c.Named e.references) {d : Char}
    (hd : d ∈ ['$', '+', '!', ')', ']', '[']) {cs rest : List Char} :
    c.exprChars e ++ rest ≠ d :: cs := by
  intro h
  obtain ⟨d', ds, hchars, hnot⟩ := exprChars_cons he
  rw [hchars] at h
  obtain ⟨rfl, -⟩ := List.cons.inj h
  exact hnot hd

end Leaves

/-! ### Groups -/

section Groups

variable {c : Code} {e a b t a' b' t' : Expr} {rest rest' : List Char}

private theorem unary_symbol_inj {op op' : UnaryOp} {cs cs' : List Char}
    (h : op.symbol.toList ++ cs = op'.symbol.toList ++ cs') : op = op' ∧ cs = cs' := by
  cases op <;> cases op' <;> first | exact ⟨rfl, (List.cons.inj h).2⟩ | cases (List.cons.inj h).1

/-- An operand ends at the space after it, and so does an operator. -/
theorem infix_inj (ha : a.IsDetermined c) (ha' : c.Named a'.references) (sym sym' : String)
    (hsym : sym.toList.all (· ≠ ' ') = true) (hsym' : sym'.toList.all (· ≠ ' ') = true)
    {cs cs' : List Char} (h : c.exprChars a ++ ' ' :: (sym.toList ++ ' ' :: cs) =
      c.exprChars a' ++ ' ' :: (sym'.toList ++ ' ' :: cs')) : a = a' ∧ sym = sym' ∧ cs = cs' := by
  have hspace : ∀ (cs : List Char) (d : Char), (' ' :: cs).head? = some d →
      decide (d ≠ ' ') = false := by
    rintro cs d ⟨⟩
    rfl
  obtain ⟨hoperand, hoperator⟩ := ha _ _ _ ha' (ends_cons (by decide) _) (ends_cons (by decide) _) h
  obtain ⟨hsame, hrest⟩ := runs_eq (List.all_eq_true.mp hsym) (List.all_eq_true.mp hsym')
    (hspace cs) (hspace cs') (List.cons.inj hoperator).2
  exact ⟨hoperand, String.toList_inj.mp hsame, (List.cons.inj hrest).2⟩

/-- The last operand ends at the bracket after it. -/
theorem last_inj (ha : a.IsDetermined c) (ha' : c.Named a'.references)
    (h : c.exprChars a ++ ')' :: rest = c.exprChars a' ++ ')' :: rest') :
    a = a' ∧ rest = rest' := by
  obtain ⟨hoperand, hrests⟩ := ha _ _ _ ha' (ends_cons (by decide) _) (ends_cons (by decide) _) h
  exact ⟨hoperand, (List.cons.inj hrests).2⟩

/-- A sign before an expression is none of the expression before an operator. -/
theorem unary_ne_binary {op : UnaryOp} (ha : c.Named a.references) (hb : c.Named b.references)
    {cs cs' : List Char} :
    op.symbol.toList ++ (c.exprChars a ++ ')' :: cs) ≠ c.exprChars b ++ ' ' :: cs' := by
  intro h
  have hends : Ends (')' :: cs) := ends_cons (by decide) _
  have hends' : Ends (' ' :: cs') := ends_cons (by decide) _
  cases op with
  | plus => exact exprChars_ne hb (by decide) h.symm
  | not => exact exprChars_ne hb (by decide) h.symm
  | neg =>
    -- A negative number could follow; but the space after it is not after the sign's argument.
    rw [exprChars_eq, exprChars_eq, List.append_assoc, List.append_assoc, ← List.append_assoc] at h
    have hlead : ∀ d ∈ '-' :: a.lead c, isLead d = true :=
      List.forall_mem_cons.mpr ⟨rfl, isLead_lead ha⟩
    obtain ⟨hrun, htail⟩ := runs_eq hlead (isLead_lead hb) (not_isLead_tail a hends)
      (not_isLead_tail b hends') h
    rcases lead_cases hb with ⟨v, rfl⟩ | hword | ⟨hnil, -⟩
    · have hspace : (a.tail c ++ ')' :: cs).head? = some ' ' := congrArg List.head? htail
      rcases head?_tail a (')' :: cs) with hnext | hnext
      · cases hspace.symm.trans hnext
      · rw [hspace] at hnext
        exact absurd hnext (by decide)
    · exact absurd (hword.2 '-' (hrun ▸ List.mem_cons_self)) (by decide)
    · rw [hnil] at hrun
      cases hrun

private theorem operator_binary (op : BinaryOp) :
    op.symbol.toList.all (· ≠ ' ') = true ∧ op.symbol ≠ "?" := by
  cases op <;> decide

private theorem binary_symbol_injective : Function.Injective BinaryOp.symbol := by
  intro op op' h
  cases op <;> cases op' <;> first | rfl | exact absurd h (by decide)

private theorem tail_unary (op : UnaryOp) :
    (Expr.unary op a).tail c ++ rest =
      '(' :: (op.symbol.toList ++ (c.exprChars a ++ ')' :: rest)) := by
  simp [Expr.tail]

private theorem tail_binary (op : BinaryOp) :
    (Expr.binary op a b).tail c ++ rest =
      '(' :: (c.exprChars a ++ ' ' ::
        (op.symbol.toList ++ ' ' :: (c.exprChars b ++ ')' :: rest))) := by
  simp [Expr.tail]

private theorem tail_select :
    (Expr.select t a b).tail c ++ rest =
      '(' :: (c.exprChars t ++ ' ' :: ("?".toList ++ ' ' ::
        (c.exprChars a ++ ' ' :: (":".toList ++ ' ' :: (c.exprChars b ++ ')' :: rest))))) := by
  simp [Expr.tail]

private theorem unary_determined {op : UnaryOp} (he : c.Named (Expr.unary op a).references)
    (ha : a.IsDetermined c) : (Expr.unary op a).IsDetermined c := by
  intro e' rest rest' he' hrest hrest' h
  obtain ⟨hshape, -, htail⟩ := start_eq he he' hrest hrest' h
  rw [tail_unary] at htail
  rw [Expr.references] at he
  cases e' with
  | unary op' a' =>
    rw [Expr.references] at he'
    rw [tail_unary] at htail
    obtain ⟨rfl, hargument⟩ := unary_symbol_inj (List.cons.inj htail).2
    obtain ⟨rfl, hrests⟩ := last_inj ha he' hargument
    exact ⟨rfl, hrests⟩
  | binary op' a' b' =>
    rw [Expr.references, named_append] at he'
    rw [tail_binary] at htail
    exact absurd (List.cons.inj htail).2 (unary_ne_binary he he'.1)
  | select t' a' b' =>
    rw [Expr.references, named_append] at he'
    rw [tail_select] at htail
    exact absurd (List.cons.inj htail).2 (unary_ne_binary he he'.1)
  | const | load | read | position | call | statistic => cases hshape

private theorem binary_determined {op : BinaryOp} (he : c.Named (Expr.binary op a b).references)
    (ha : a.IsDetermined c) (hb : b.IsDetermined c) : (Expr.binary op a b).IsDetermined c := by
  intro e' rest rest' he' hrest hrest' h
  obtain ⟨hshape, -, htail⟩ := start_eq he he' hrest hrest' h
  obtain ⟨hop, hquestion⟩ := operator_binary op
  rw [tail_binary] at htail
  rw [Expr.references, named_append] at he
  cases e' with
  | unary op' a' =>
    rw [Expr.references] at he'
    rw [tail_unary] at htail
    exact absurd (List.cons.inj htail).2.symm (unary_ne_binary he' he.1)
  | binary op' a' b' =>
    rw [Expr.references, named_append] at he'
    rw [tail_binary] at htail
    obtain ⟨rfl, hsymbol, hright⟩ := infix_inj ha he'.1 _ _ hop (operator_binary op').1
      (List.cons.inj htail).2
    obtain ⟨rfl, hrests⟩ := last_inj hb he'.2 hright
    exact ⟨by rw [binary_symbol_injective hsymbol], hrests⟩
  | select t' a' b' =>
    rw [Expr.references, named_append] at he'
    rw [tail_select] at htail
    exact absurd (infix_inj ha he'.1 _ _ hop (by decide) (List.cons.inj htail).2).2.1 hquestion
  | const | load | read | position | call | statistic => cases hshape

private theorem select_determined (he : c.Named (Expr.select t a b).references)
    (ht : t.IsDetermined c) (ha : a.IsDetermined c) (hb : b.IsDetermined c) :
    (Expr.select t a b).IsDetermined c := by
  intro e' rest rest' he' hrest hrest' h
  obtain ⟨hshape, -, htail⟩ := start_eq he he' hrest hrest' h
  rw [tail_select] at htail
  rw [Expr.references, named_append] at he
  cases e' with
  | unary op' a' =>
    rw [Expr.references] at he'
    rw [tail_unary] at htail
    exact absurd (List.cons.inj htail).2.symm (unary_ne_binary he' he.1)
  | binary op' a' b' =>
    obtain ⟨hop, hquestion⟩ := operator_binary op'
    rw [Expr.references, named_append] at he'
    rw [tail_binary] at htail
    exact absurd (infix_inj ht he'.1 _ _ (by decide) hop (List.cons.inj htail).2).2.1.symm hquestion
  | select t' a' b' =>
    rw [Expr.references, named_append, named_append] at he'
    rw [tail_select] at htail
    obtain ⟨rfl, -, hyes⟩ := infix_inj ht he'.1 _ _ (by decide) (by decide) (List.cons.inj htail).2
    obtain ⟨rfl, -, hno⟩ := infix_inj ha he'.2.1 _ _ (by decide) (by decide) hyes
    obtain ⟨rfl, hrests⟩ := last_inj hb he'.2.2 hno
    exact ⟨rfl, hrests⟩
  | const | load | read | position | call | statistic => cases hshape

end Groups

/-! ### Reads -/

section Reads

variable {c : Code} {rest rest' : List Char}

/-- A name that is not at hand is none. -/
theorem lt_of_isName {names : List String} {i : ℕ} (h : IsName (nameAt names i)) :
    i < names.length := by
  by_contra hlong
  have hmissing : nameAt names i = "?" := by
    rw [nameAt, List.getD_eq_default _ _ (not_lt.mp hlong)]
  rw [hmissing] at h
  exact absurd h.chars.2 (by decide)

private theorem source_inj (hsources : c.sources.Nodup) {i j : ℕ} (hi : IsName (c.sourceName i))
    (hj : IsName (c.sourceName j)) (h : c.sourceName i = c.sourceName j) : i = j := by
  have hilt := lt_of_isName hi
  have hjlt := lt_of_isName hj
  rw [sourceName, sourceName, nameAt, nameAt, List.getD_eq_getElem _ _ hilt,
    List.getD_eq_getElem _ _ hjlt] at h
  exact (hsources.getElem_inj_iff).mp h

private theorem place_determined {p : Place Expr} (hnamed : c.Named p.value.references)
    (hp : p.value.IsDetermined c) :
    Determined c.placeChars (fun p => c.Named p.value.references) p := by
  intro p' rest rest' hp' hrest hrest' h
  obtain ⟨relative, x⟩ := p
  obtain ⟨relative', x'⟩ := p'
  cases relative <;> cases relative'
  · obtain ⟨hvalue, hrests⟩ := hp _ _ _ hp' hrest hrest' h
    exact ⟨congrArg _ hvalue, hrests⟩
  · exact absurd h (exprChars_ne hnamed (by decide))
  · exact absurd h.symm (exprChars_ne hp' (by decide))
  · obtain ⟨hvalue, hrests⟩ := hp _ _ _ hp' hrest hrest' (List.cons.inj h).2
    exact ⟨congrArg _ hvalue, hrests⟩

/-- The first coordinate of a position is no band. -/
theorem place_ne_band {p : Place Expr} {e : Expr} (hnamed : c.Named p.value.references)
    (he : c.Named e.references) (h : p.value.IsDetermined c ∨ e.IsDetermined c) :
    c.placeChars p ++ ',' :: rest ≠ c.exprChars e ++ ']' :: rest' := by
  intro heq
  obtain ⟨relative, x⟩ := p
  cases relative with
  | true => exact exprChars_ne he (by decide) heq.symm
  | false =>
    have hcomma : ',' :: rest = ']' :: rest' := by
      rcases h with h | h
      · exact (h _ _ _ he (ends_cons (by decide) _) (ends_cons (by decide) _) heq).2
      · exact (h _ _ _ hnamed (ends_cons (by decide) _) (ends_cons (by decide) _) heq.symm).2.symm
    cases (List.cons.inj hcomma).1

section Access

variable {band band' : Option Expr} {point point' : Option (Point Expr)}

private theorem named_point {p : Point Expr} : c.Named (pointReferences (some p)) ↔
    c.Named p.x.value.references ∧ c.Named p.y.value.references := by
  obtain ⟨⟨r, x⟩, ⟨s, y⟩⟩ := p
  rw [pointReferences, placesReferences, named_append]
  rfl

private theorem point_inj (hnamed : c.Named (pointReferences point))
    (hpoint : ∀ p, point = some p → p.x.value.IsDetermined c ∧ p.y.value.IsDetermined c)
    (hnamed' : c.Named (pointReferences point')) (hrest : Ends rest) (hrest' : Ends rest')
    (h : (c.pointText point).toList ++ rest = (c.pointText point').toList ++ rest') :
    point = point' ∧ rest = rest' := by
  have hbracket : ∀ {rest : List Char} {p : Point Expr} {rest'}, Ends rest →
      rest ≠ (c.pointText (some p)).toList ++ rest' := by
    rintro rest p rest' hrest rfl
    rw [toList_point] at hrest
    exact absurd (hrest '[' rfl) (by decide)
  cases point with
  | none =>
    cases point' with
    | none => exact ⟨rfl, h⟩
    | some p' => exact absurd h (hbracket hrest)
  | some p =>
    cases point' with
    | none => exact absurd h.symm (hbracket hrest')
    | some p' =>
      obtain ⟨hx, hy⟩ := hpoint p rfl
      obtain ⟨hxnamed, hynamed⟩ := named_point.mp hnamed
      obtain ⟨hxnamed', hynamed'⟩ := named_point.mp hnamed'
      simp only [toList_point, List.cons_append, List.append_assoc, List.cons.injEq, true_and] at h
      obtain ⟨hxeq, hsecond⟩ := place_determined hxnamed hx _ _ _ hxnamed'
        (ends_cons (by decide) _) (ends_cons (by decide) _) h
      simp only [List.cons.injEq, true_and] at hsecond
      obtain ⟨hyeq, hrests⟩ := place_determined hynamed hy _ _ _ hynamed'
        (ends_cons (by decide) _) (ends_cons (by decide) _) hsecond
      obtain ⟨x, y⟩ := p
      exact ⟨by rw [show x = p'.x from hxeq, show y = p'.y from hyeq], (List.cons.inj hrests).2⟩

/-- A position or nothing is no band. -/
theorem point_ne_band {e : Expr} (hnamed : c.Named (pointReferences point))
    (he : c.Named e.references) (hrest : Ends rest)
    (h : (∀ p, point = some p → p.x.value.IsDetermined c) ∨ e.IsDetermined c) :
    (c.pointText point).toList ++ rest ≠ '[' :: (c.exprChars e ++ ']' :: rest') := by
  intro heq
  cases point with
  | none =>
    rw [show (c.pointText none).toList ++ rest = rest from rfl] at heq
    exact absurd (hrest '[' (heq ▸ rfl)) (by decide)
  | some p =>
    rw [toList_point, List.cons_append, List.append_assoc] at heq
    exact place_ne_band (named_point.mp hnamed).1 he (h.imp_left fun h => h p rfl)
      (List.cons.inj heq).2

private theorem access_none :
    c.accessChars none point ++ rest = (c.pointText point).toList ++ rest := by
  simp [accessChars, bandText]

private theorem access_some (e : Expr) : c.accessChars (some e) point ++ rest =
    '[' :: (c.exprChars e ++ ']' :: ((c.pointText point).toList ++ rest)) := by
  rw [accessChars, toList_band]
  simp

private theorem access_inj (hband : ∀ e, band = some e → e.IsDetermined c)
    (hpoint : ∀ p, point = some p → p.x.value.IsDetermined c ∧ p.y.value.IsDetermined c)
    (hnamed : c.Named (bandReferences band ++ pointReferences point))
    (hnamed' : c.Named (bandReferences band' ++ pointReferences point'))
    (hrest : Ends rest) (hrest' : Ends rest')
    (h : c.accessChars band point ++ rest = c.accessChars band' point' ++ rest') :
    band = band' ∧ point = point' ∧ rest = rest' := by
  rw [named_append] at hnamed hnamed'
  cases band with
  | none =>
    rw [access_none] at h
    cases band' with
    | none =>
      rw [access_none] at h
      exact ⟨rfl, point_inj hnamed.2 hpoint hnamed'.2 hrest hrest' h⟩
    | some e' =>
      rw [access_some] at h
      exact absurd h (point_ne_band hnamed.2 hnamed'.1 hrest (.inl fun p hp => (hpoint p hp).1))
  | some e =>
    have he := hband e rfl
    rw [access_some] at h
    cases band' with
    | none =>
      rw [access_none] at h
      exact absurd h.symm (point_ne_band hnamed'.2 hnamed.1 hrest' (.inr he))
    | some e' =>
      rw [access_some] at h
      obtain ⟨rfl, hpoints⟩ := he _ _ _ hnamed'.1 (ends_cons (by decide) _)
        (ends_cons (by decide) _) (List.cons.inj h).2
      exact ⟨rfl, point_inj hnamed.2 hpoint hnamed'.2 hrest hrest' (List.cons.inj hpoints).2⟩

private theorem read_determined (hsources : c.sources.Nodup) {image : ℕ}
    (he : c.Named (Expr.read image band point).references)
    (hband : ∀ e, band = some e → e.IsDetermined c)
    (hpoint : ∀ p, point = some p → p.x.value.IsDetermined c ∧ p.y.value.IsDetermined c) :
    (Expr.read image band point).IsDetermined c := by
  intro e' rest rest' he' hrest hrest' h
  obtain ⟨hshape, hlead, htail⟩ := start_eq he he' hrest hrest' h
  cases e' with
  | read image' band' point' =>
    obtain rfl := source_inj hsources (isName_source he) (isName_source he')
      (String.toList_inj.mp hlead)
    rw [Expr.references, named_cons] at he he'
    obtain ⟨rfl, rfl, hrests⟩ := access_inj hband hpoint he.2 he'.2 hrest hrest' htail
    exact ⟨rfl, hrests⟩
  | const | load | position | unary | binary | select | call | statistic => cases hshape

end Access

end Reads

/-! ### Functions -/

section Functions

variable {c : Code}

private theorem exprTexts_eq (c : Code) (es : List Expr) : c.exprTexts es = es.map c.exprText := by
  induction es with
  | nil => rw [exprTexts, List.map_nil]
  | cons e es ih => rw [exprTexts, List.map_cons, ih]

private theorem argumentTexts_eq (c : Code) (as : List (Argument Expr)) :
    c.argumentTexts as = as.map c.argumentText := by
  induction as with
  | nil => rw [argumentTexts, List.map_nil]
  | cons a as ih => rw [argumentTexts, List.map_cons, ih]

def argumentChars (c : Code) (a : Argument Expr) : List Char := (c.argumentText a).toList

private theorem toList_exprs (c : Code) (es : List Expr) :
    (", ".intercalate (c.exprTexts es)).toList = joined c.exprChars es := by
  rw [String.toList_intercalate, exprTexts_eq, List.map_map]
  rfl

private theorem toList_arguments (c : Code) (as : List (Argument Expr)) :
    (", ".intercalate (c.argumentTexts as)).toList = joined c.argumentChars as := by
  rw [String.toList_intercalate, argumentTexts_eq, List.map_map]
  rfl

private theorem named_exprs {es : List Expr} :
    c.Named (exprsReferences es) ↔ ∀ e ∈ es, c.Named e.references := by
  induction es with
  | nil => simp [exprsReferences, Named]
  | cons e es ih => rw [exprsReferences, named_append, ih, List.forall_mem_cons]

private theorem named_arguments {as : List (Argument Expr)} :
    c.Named (argumentsReferences as) ↔ ∀ a ∈ as, c.Named (argumentReferences a) := by
  induction as with
  | nil => simp [argumentsReferences, Named]
  | cons a as ih => rw [argumentsReferences, named_append, ih, List.forall_mem_cons]

private theorem exprs_start (e : Expr) (he : c.Named e.references) :
    ∃ d ds, c.exprChars e = d :: ds ∧ d ∉ [')', ']'] := by
  obtain ⟨d, ds, hchars, hd⟩ := exprChars_cons he
  have hclose : [')', ']'] ⊆ ['$', '+', '!', ')', ']', '['] := by decide
  exact ⟨d, ds, hchars, fun hmem => hd (hclose hmem)⟩

/-! #### Arguments of statistics -/

private theorem toList_listSlot (i : ℕ) (rest : List Char) :
    c.argumentChars (.many (.slot i)) ++ rest =
      (nameAt c.listSlots i).toList ++ '@' :: ('l' :: (Nat.toDigits 10 i ++ rest)) := by
  simp [argumentChars, argumentText, itemsText, listText, toString]

private theorem toList_literal (items : List Expr) (rest : List Char) :
    c.argumentChars (.many (.literal items)) ++ rest =
      '[' :: (joined c.exprChars items ++ ']' :: rest) := by
  simp [argumentChars, argumentText, itemsText, ← toList_exprs]

private theorem isName_list {i : ℕ} (h : c.Named (argumentReferences (.many (.slot i)))) :
    IsName (nameAt c.listSlots i) :=
  h (.list i) List.mem_cons_self _ rfl

private theorem not_isLead_mark (cs : List Char) :
    ∀ d, ('@' :: cs).head? = some d → isLead d = false := by
  rintro d ⟨⟩
  rfl

/-- A slot of a list is no expression. -/
theorem expr_ne_listSlot {e : Expr} {i : ℕ} {rest rest' : List Char} (he : c.Named e.references)
    (hi : IsName (nameAt c.listSlots i)) (hrest : Ends rest) :
    c.exprChars e ++ rest ≠ c.argumentChars (.many (.slot i)) ++ rest' := by
  intro h
  rw [toList_listSlot, exprChars_eq, List.append_assoc] at h
  obtain ⟨hlead, htail⟩ := runs_eq (isLead_lead he) hi.chars.1.isLead (not_isLead_tail e hrest)
    (not_isLead_mark _) h
  have hshape := shapeAt_expr he hrest
  rw [htail] at hshape
  cases e with
  | load slot => cases slot <;> cases (List.cons.inj (List.cons.inj htail).2).1
  | const | read | position | unary | binary | select | call | statistic => cases hshape

private theorem listSlot_cons {i : ℕ} (hi : IsName (nameAt c.listSlots i)) (rest : List Char) :
    ∃ d ds, c.argumentChars (.many (.slot i)) ++ rest = d :: ds ∧ isWordChar d = true := by
  obtain ⟨d, ds, hname, hd⟩ := hi.chars.1.exists_cons
  exact ⟨d, _, by rw [toList_listSlot, hname, List.cons_append], hd⟩

private theorem listSlot_ne_literal {i : ℕ} {rest cs : List Char}
    (hi : IsName (nameAt c.listSlots i)) :
    c.argumentChars (.many (.slot i)) ++ rest ≠ '[' :: cs := by
  intro h
  obtain ⟨d, ds, hchars, hd⟩ := listSlot_cons hi rest
  rw [hchars] at h
  obtain ⟨rfl, -⟩ := List.cons.inj h
  exact absurd hd (by decide)

/-- An argument that its text determines. -/
def ArgumentDetermined (c : Code) (a : Argument Expr) : Prop :=
  Determined c.argumentChars (fun a => c.Named (argumentReferences a)) a

private theorem one_determined {e : Expr} (he : c.Named e.references) (h : e.IsDetermined c) :
    c.ArgumentDetermined (.one e) := by
  intro a' rest rest' ha' hrest hrest' heq
  cases a' with
  | one e' =>
    obtain ⟨rfl, hrests⟩ := h e' rest rest' ha' hrest hrest' heq
    exact ⟨rfl, hrests⟩
  | many items =>
    cases items with
    | slot i => exact absurd heq (expr_ne_listSlot he (isName_list ha') hrest)
    | literal items =>
      rw [toList_literal] at heq
      exact absurd heq (exprChars_ne he (by decide))

private theorem listSlot_determined {i : ℕ} (hi : IsName (nameAt c.listSlots i)) :
    c.ArgumentDetermined (.many (.slot i)) := by
  intro a' rest rest' ha' hrest hrest' heq
  cases a' with
  | one e' => exact absurd heq.symm (expr_ne_listSlot ha' hi hrest')
  | many items =>
    cases items with
    | slot j =>
      rw [toList_listSlot, toList_listSlot] at heq
      obtain ⟨-, hnumbers⟩ := runs_eq hi.chars.1.isLead (isName_list ha').chars.1.isLead
        (not_isLead_mark _) (not_isLead_mark _) heq
      obtain ⟨-, rfl, hrests⟩ := slot_number_inj hrest hrest' (List.cons.inj hnumbers).2
      exact ⟨rfl, hrests⟩
    | literal items =>
      rw [toList_literal] at heq
      exact absurd heq (listSlot_ne_literal hi)

private theorem literal_determined {items : List Expr} (hnamed : ∀ e ∈ items, c.Named e.references)
    (h : ∀ e ∈ items, e.IsDetermined c) : c.ArgumentDetermined (.many (.literal items)) := by
  intro a' rest rest' ha' hrest hrest' heq
  rw [toList_literal] at heq
  cases a' with
  | one e' => exact absurd heq.symm (exprChars_ne ha' (by decide))
  | many items' =>
    cases items' with
    | slot i => exact absurd heq.symm (listSlot_ne_literal (isName_list ha'))
    | literal items' =>
      rw [toList_literal] at heq
      obtain ⟨rfl, hrests⟩ := joined_determined (.inr rfl) exprs_start hnamed h
        (named_exprs.mp ha') (List.cons.inj heq).2
      exact ⟨rfl, hrests⟩

private theorem arguments_start (a : Argument Expr) (ha : c.Named (argumentReferences a)) :
    ∃ d ds, c.argumentChars a = d :: ds ∧ d ∉ [')', ']'] := by
  cases a with
  | one e => exact exprs_start e ha
  | many items =>
    cases items with
    | slot i =>
      obtain ⟨d, ds, hchars, hd⟩ := listSlot_cons (isName_list ha) []
      rw [List.append_nil] at hchars
      refine ⟨d, ds, hchars, fun hmem => ?_⟩
      have hall : [')', ']'].all (fun d => !isWordChar d) = true := by decide
      have hnot := List.all_eq_true.mp hall d hmem
      rw [hd] at hnot
      cases hnot
    | literal items =>
      have hchars := toList_literal (c := c) items []
      rw [List.append_nil] at hchars
      exact ⟨'[', _, hchars, by decide⟩

/-! #### Calls -/

private theorem position_determined (f : PositionFunction) : (Expr.position f).IsDetermined c := by
  intro e' rest rest' he' hrest hrest' h
  have he : c.Named (Expr.position f).references := by
    rw [Expr.references, named_cons]
    exact ⟨by rintro name ⟨⟩, List.forall_mem_nil _⟩
  obtain ⟨hshape, hlead, htail⟩ := start_eq he he' hrest hrest' h
  cases e' with
  | position g =>
    cases builtin_name_injective (f := .position f) (g := .position g) hlead
    exact ⟨rfl, (List.cons.inj (List.cons.inj htail).2).2⟩
  | call g args => cases builtin_name_injective (f := .position f) (g := .scalar g) hlead
  | statistic g args => cases builtin_name_injective (f := .position f) (g := .statistic g) hlead
  | const | load | read | unary | binary | select => cases hshape

private theorem call_determined {f : ScalarFunction} {args : List Expr}
    (he : c.Named (Expr.call f args).references) (hargs : ∀ e ∈ args, e.IsDetermined c) :
    (Expr.call f args).IsDetermined c := by
  intro e' rest rest' he' hrest hrest' h
  obtain ⟨hshape, hlead, htail⟩ := start_eq he he' hrest hrest' h
  cases e' with
  | position g => cases builtin_name_injective (f := .scalar f) (g := .position g) hlead
  | call g args' =>
    cases builtin_name_injective (f := .scalar f) (g := .scalar g) hlead
    rw [Expr.references, named_exprs] at he he'
    simp only [Expr.tail, toList_exprs, List.cons_append, List.append_assoc, List.cons.injEq,
      true_and] at htail
    obtain ⟨rfl, hrests⟩ := joined_determined (.inl rfl) exprs_start he hargs he' htail
    exact ⟨rfl, hrests⟩
  | statistic g args' => cases builtin_name_injective (f := .scalar f) (g := .statistic g) hlead
  | const | load | read | unary | binary | select => cases hshape

private theorem statistic_determined {f : Statistic} {args : List (Argument Expr)}
    (he : c.Named (Expr.statistic f args).references)
    (hargs : ∀ a ∈ args, c.ArgumentDetermined a) : (Expr.statistic f args).IsDetermined c := by
  intro e' rest rest' he' hrest hrest' h
  obtain ⟨hshape, hlead, htail⟩ := start_eq he he' hrest hrest' h
  cases e' with
  | position g => cases builtin_name_injective (f := .statistic f) (g := .position g) hlead
  | call g args' => cases builtin_name_injective (f := .statistic f) (g := .scalar g) hlead
  | statistic g args' =>
    cases builtin_name_injective (f := .statistic f) (g := .statistic g) hlead
    rw [Expr.references, named_arguments] at he he'
    simp only [Expr.tail, toList_arguments, List.cons_append, List.append_assoc, List.cons.injEq,
      true_and] at htail
    obtain ⟨rfl, hrests⟩ := joined_determined (.inl rfl) arguments_start he hargs he' htail
    exact ⟨rfl, hrests⟩
  | const | load | read | unary | binary | select => cases hshape

end Functions

/-! ### All expressions -/

section Whole

variable {c : Code}

mutual

theorem expr_determined (hsources : c.sources.Nodup) :
    ∀ e : Expr, c.Named e.references → e.IsDetermined c
  | .const v, _ => const_determined v
  | .load _, he => load_determined he
  | .read image band point, he => by
    have hparts : c.Named (bandReferences band ++ pointReferences point) := by
      rw [Expr.references, named_cons] at he
      exact he.2
    rw [named_append] at hparts
    exact read_determined hsources he (band_determined hsources band hparts.1)
      (point_determined hsources point hparts.2)
  | .position f, _ => position_determined f
  | .unary op a, he => by
    have ha := he
    rw [Expr.references] at ha
    exact unary_determined he (expr_determined hsources a ha)
  | .binary op a b, he => by
    have hparts := he
    rw [Expr.references, named_append] at hparts
    exact binary_determined he (expr_determined hsources a hparts.1)
      (expr_determined hsources b hparts.2)
  | .select t a b, he => by
    have hparts := he
    rw [Expr.references, named_append, named_append] at hparts
    exact select_determined he (expr_determined hsources t hparts.1)
      (expr_determined hsources a hparts.2.1) (expr_determined hsources b hparts.2.2)
  | .call f args, he => by
    have hargs := he
    rw [Expr.references, named_exprs] at hargs
    exact call_determined he (exprs_determined hsources args hargs)
  | .statistic f args, he => by
    have hargs := he
    rw [Expr.references, named_arguments] at hargs
    exact statistic_determined he (arguments_determined hsources args hargs)

private theorem exprs_determined (hsources : c.sources.Nodup) :
    ∀ es : List Expr, (∀ e ∈ es, c.Named e.references) →
      ∀ e ∈ es, e.IsDetermined c
  | [], _ => fun _ he => absurd he List.not_mem_nil
  | e :: es, h => List.forall_mem_cons.mpr
      ⟨expr_determined hsources e (h e List.mem_cons_self),
        exprs_determined hsources es (List.forall_mem_cons.mp h).2⟩

private theorem band_determined (hsources : c.sources.Nodup) :
    ∀ band, c.Named (bandReferences band) → ∀ e, band = some e → e.IsDetermined c
  | none, _ => by rintro _ ⟨⟩
  | some e, h => fun _ heq => Option.some.inj heq ▸ expr_determined hsources e h

private theorem point_determined (hsources : c.sources.Nodup) :
    ∀ point, c.Named (pointReferences point) →
    ∀ p, point = some p → p.x.value.IsDetermined c ∧ p.y.value.IsDetermined c
  | none, _ => by rintro _ ⟨⟩
  | some p, h => fun _ heq => Option.some.inj heq ▸ places_determined hsources p h

private theorem places_determined (hsources : c.sources.Nodup) : ∀ p, c.Named (placesReferences p) →
    p.x.value.IsDetermined c ∧ p.y.value.IsDetermined c
  | ⟨x, y⟩, h => by
    rw [placesReferences, named_append] at h
    exact ⟨place_value_determined hsources x h.1, place_value_determined hsources y h.2⟩

private theorem place_value_determined (hsources : c.sources.Nodup) :
    ∀ p, c.Named (placeReferences p) → p.value.IsDetermined c
  | ⟨_, value⟩, h => expr_determined hsources value h

private theorem items_determined (hsources : c.sources.Nodup) :
    ∀ items, c.Named (itemsReferences items) → c.ArgumentDetermined (.many items)
  | .slot i, h => listSlot_determined (isName_list h)
  | .literal items, h => by
    have hitems := named_exprs.mp h
    exact literal_determined hitems (exprs_determined hsources items hitems)

private theorem argument_determined (hsources : c.sources.Nodup) :
    ∀ a, c.Named (argumentReferences a) → c.ArgumentDetermined a
  | .one e, h => one_determined h (expr_determined hsources e h)
  | .many items, h => items_determined hsources items h

private theorem arguments_determined (hsources : c.sources.Nodup) : ∀ as : List (Argument Expr),
    (∀ a ∈ as, c.Named (argumentReferences a)) → ∀ a ∈ as, c.ArgumentDetermined a
  | [], _ => fun _ ha => absurd ha List.not_mem_nil
  | a :: as, h => List.forall_mem_cons.mpr
      ⟨argument_determined hsources a (h a List.mem_cons_self),
        arguments_determined hsources as (List.forall_mem_cons.mp h).2⟩

end

end Whole

end RasterScript.Code
