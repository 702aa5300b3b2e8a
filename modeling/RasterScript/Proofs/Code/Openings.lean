import Mathlib
import RasterScript.Code.Text
import RasterScript.Proofs.Code.References
import RasterScript.Proofs.Number.Plain
import RasterScript.Proofs.Token.Patterns

/-! How the texts of expressions start: with a number, with a name, or with a bracket. The first run
of characters and the character after it tell the kind of the expression. -/
namespace RasterScript.Code

open Token (isWordChar isWordStart)

/-! ### Names -/

/-- The name of what code refers to, but for built-in functions. -/
def name? (c : Code) : Reference → Option String
  | .slot (.image i) => some (nameAt c.imageSlots i)
  | .slot (.pixel i) => some (nameAt c.pixelSlots i)
  | .list i => some (nameAt c.listSlots i)
  | .source i => some (c.sourceName i)
  | .destination i => some (c.destinationName i)
  | .position _ => none

/-- A name as scripts have them, and not the text of a number. -/
structure IsName (name : String) : Prop where
  ident : Token.Matches (.token .ident) name.toList
  ne_nan : name ≠ "NaN"
  ne_inf : name ≠ "inf"

/-- Everything referred to has such a name. -/
def Named (c : Code) (rs : List Reference) : Prop :=
  ∀ r ∈ rs, ∀ name, c.name? r = some name → IsName name

theorem named_append {c : Code} {rs ts : List Reference} :
    c.Named (rs ++ ts) ↔ c.Named rs ∧ c.Named ts := List.forall_mem_append

theorem named_cons {c : Code} {r : Reference} {rs : List Reference} :
    c.Named (r :: rs) ↔ (∀ name, c.name? r = some name → IsName name) ∧ c.Named rs :=
  List.forall_mem_cons

/-! ### Texts as characters -/

def exprChars (c : Code) (e : Expr) : List Char := (c.exprText e).toList

/-- The characters of numbers and names. -/
def isLead (c : Char) : Bool := isWordChar c || c = '.' || c = '-'

/-- The number or name that an expression starts with. -/
def Expr.lead (c : Code) : Expr → List Char
  | .const v => (Number.plain v).toList
  | .load (.image i) => (nameAt c.imageSlots i).toList
  | .load (.pixel i) => (nameAt c.pixelSlots i).toList
  | .read image _ _ => (c.sourceName image).toList
  | .position f => f.name.toList
  | .call f _ => f.name.toList
  | .statistic f _ => f.name.toList
  | .unary .. | .binary .. | .select .. => []

/-- What a read selects. -/
def accessChars (c : Code) (band : Option Expr) (point : Option (Point Expr)) : List Char :=
  (c.bandText band).toList ++ (c.pointText point).toList

/-- What follows it. -/
def Expr.tail (c : Code) : Expr → List Char
  | .const _ => []
  | .load (.image i) => '@' :: 'i' :: Nat.toDigits 10 i
  | .load (.pixel i) => '@' :: 'p' :: Nat.toDigits 10 i
  | .read _ band point => c.accessChars band point
  | .position _ => ['(', ')']
  | .call _ args => '(' :: ((", ".intercalate (c.exprTexts args)).toList ++ [')'])
  | .statistic _ args => '(' :: ((", ".intercalate (c.argumentTexts args)).toList ++ [')'])
  | .unary op a => '(' :: (op.symbol.toList ++ (c.exprChars a ++ [')']))
  | .binary op a b =>
    '(' :: (c.exprChars a ++ ' ' :: (op.symbol.toList ++ ' ' :: (c.exprChars b ++ [')'])))
  | .select t a b =>
    '(' :: (c.exprChars t ++ ' ' :: '?' :: ' ' ::
      (c.exprChars a ++ ' ' :: ':' :: ' ' :: (c.exprChars b ++ [')'])))

theorem exprChars_eq (c : Code) (e : Expr) : c.exprChars e = e.lead c ++ e.tail c := by
  cases e with
  | const v => simp [exprChars, exprText, Expr.lead, Expr.tail]
  | load slot => cases slot <;> simp [exprChars, exprText, slotText, Expr.lead, Expr.tail, toString]
  | read image band point => simp [exprChars, exprText, Expr.lead, Expr.tail, accessChars]
  | position f => simp [exprChars, exprText, Expr.lead, Expr.tail]
  | unary op a => simp [exprChars, exprText, Expr.lead, Expr.tail]
  | binary op a b => simp [exprChars, exprText, Expr.lead, Expr.tail]
  | select t a b => simp [exprChars, exprText, Expr.lead, Expr.tail]
  | call f args => simp [exprChars, exprText, Expr.lead, Expr.tail]
  | statistic f args => simp [exprChars, exprText, Expr.lead, Expr.tail]

/-! ### Where texts end -/

/-- What may follow an expression. -/
def Ends (rest : List Char) : Prop := ∀ c, rest.head? = some c → c ∈ [')', ']', ',', ' ']

theorem ends_cons {d : Char} (h : d ∈ [')', ']', ',', ' ']) (cs : List Char) : Ends (d :: cs) :=
  fun _ hc => Option.some.inj hc ▸ h

theorem Ends.head?_ne {rest : List Char} (h : Ends rest) {d : Char}
    (hd : d ∉ [')', ']', ',', ' ']) : rest.head? ≠ some d := fun hc => hd (h d hc)

theorem Ends.not_isLead {rest : List Char} (h : Ends rest) :
    ∀ c, rest.head? = some c → isLead c = false := by
  have hall : [')', ']', ',', ' '].all (fun c => !isLead c) = true := by decide
  intro c hc
  simpa using List.all_eq_true.mp hall c (h c hc)

/-- Two texts that start with runs of one class have the same run and the same rest. -/
theorem runs_eq {p : Char → Bool} {run run' tail tail' : List Char} (hrun : ∀ c ∈ run, p c = true)
    (hrun' : ∀ c ∈ run', p c = true) (htail : ∀ c, tail.head? = some c → p c = false)
    (htail' : ∀ c, tail'.head? = some c → p c = false) (h : run ++ tail = run' ++ tail') :
    run = run' ∧ tail = tail' := by
  obtain ⟨htake, hdrop⟩ := Number.Decimal.takeWhile_append hrun htail
  obtain ⟨htake', hdrop'⟩ := Number.Decimal.takeWhile_append hrun' htail'
  exact ⟨by rw [← htake, h, htake'], by rw [← hdrop, h, hdrop']⟩

/-! ### How expressions start -/

theorem isLead_of_isWordChar {d : Char} (h : isWordChar d) : isLead d = true := by
  rw [isLead, h, Bool.true_or, Bool.true_or]

private theorem isLead_of_isNumeral {d : Char} (h : Number.Layout.isNumeral d = true) :
    isLead d = true := by
  rw [Number.Layout.isNumeral, Bool.or_eq_true] at h
  rcases h with h | h
  · exact isLead_of_isWordChar (Token.isWordChar_of_isDigit h)
  · rw [isLead, h, Bool.or_true, Bool.true_or]

/-- A run of letters and digits. -/
def IsWord (cs : List Char) : Prop := cs ≠ [] ∧ ∀ c ∈ cs, isWordChar c = true

theorem IsWord.isLead {cs : List Char} (h : IsWord cs) : ∀ c ∈ cs, isLead c = true :=
  fun c hc => isLead_of_isWordChar (h.2 c hc)

theorem IsWord.exists_cons {cs : List Char} (h : IsWord cs) :
    ∃ d ds, cs = d :: ds ∧ isWordChar d = true := by
  obtain ⟨d, ds, rfl⟩ := List.exists_cons_of_ne_nil h.1
  exact ⟨d, ds, rfl, h.2 d List.mem_cons_self⟩

theorem IsName.chars {name : String} (h : IsName name) :
    IsWord name.toList ∧ name.toList.head?.any isWordStart = true := by
  have hident := h.ident
  generalize name.toList = cs at hident ⊢
  cases hident with
  | word hk => exact absurd hk (by decide)
  | symbol hk => exact absurd hk (by decide)
  | ident hd hds =>
    exact ⟨⟨List.cons_ne_nil _ _,
      List.forall_mem_cons.mpr ⟨Token.isWordChar_of_isWordStart hd, hds⟩⟩, hd⟩

theorem isName_of_chars {name : String} (hstart : name.toList.head?.any isWordStart = true)
    (hword : name.toList.all isWordChar = true) (hnan : name ≠ "NaN") (hinf : name ≠ "inf") :
    IsName name := by
  refine ⟨?_, hnan, hinf⟩
  generalize name.toList = cs at hstart hword ⊢
  cases cs with
  | nil => cases hstart
  | cons d ds => exact .ident hstart (List.forall_mem_cons.mp (List.all_eq_true.mp hword)).2

private theorem isLead_plain (v : Float) : ∀ c ∈ (Number.plain v).toList, isLead c = true := by
  have hnan : ['N', 'a', 'N'].all isLead = true := by decide
  have hinf : ['i', 'n', 'f'].all isLead = true := by decide
  have htext := Number.plainText v
  generalize (Number.plain v).toList = cs at htext ⊢
  cases htext with
  | nan => exact List.all_eq_true.mp hnan
  | infinite => exact List.all_eq_true.mp hinf
  | negative hcs =>
    refine List.forall_mem_cons.mpr ⟨rfl, ?_⟩
    rcases hcs with hcs | rfl
    · exact fun c hc => isLead_of_isNumeral (hcs c hc)
    · exact List.all_eq_true.mp hinf
  | digits hd hcs =>
    exact List.forall_mem_cons.mpr ⟨isLead_of_isWordChar (Token.isWordChar_of_isDigit hd),
      fun c hc => isLead_of_isNumeral (hcs c hc)⟩

private theorem mem_builtins (f : Builtin) : f ∈ Builtin.all := by
  rcases f with f | f | f <;> cases f <;> decide

private theorem isWord_builtin (f : Builtin) : IsWord f.name.toList := by
  have hall : Builtin.all.all
      (fun f => !f.name.toList.isEmpty && f.name.toList.all isWordChar) = true := by
    decide +kernel
  have hname := List.all_eq_true.mp hall f (mem_builtins f)
  rw [Bool.and_eq_true, List.all_eq_true] at hname
  refine ⟨fun hnil => ?_, hname.2⟩
  rw [hnil] at hname
  exact absurd hname.1 (by decide)

theorem builtin_name_injective {f g : Builtin} (h : f.name.toList = g.name.toList) : f = g := by
  have hnodup : (Builtin.all.map Builtin.name).Nodup := by decide +kernel
  exact List.inj_on_of_nodup_map hnodup (mem_builtins f) (mem_builtins g) (String.toList_inj.mp h)

/-- The kinds of expressions that their first characters tell apart. -/
inductive Shape where
  | number | slot | source | function | group
deriving DecidableEq

def Expr.shape : Expr → Shape
  | .const _ => .number
  | .load _ => .slot
  | .read .. => .source
  | .position _ | .call .. | .statistic .. => .function
  | .unary .. | .binary .. | .select .. => .group

/-- Whether a run is a name and not a number. -/
def isNameRun (lead : List Char) : Bool :=
  lead.head?.any isWordStart && lead ≠ ['N', 'a', 'N'] && lead ≠ ['i', 'n', 'f']

theorem IsName.isNameRun {name : String} (h : IsName name) : isNameRun name.toList = true := by
  have hnan : name.toList ≠ ['N', 'a', 'N'] := fun hnan => h.ne_nan (String.toList_inj.mp hnan)
  have hinf : name.toList ≠ ['i', 'n', 'f'] := fun hinf => h.ne_inf (String.toList_inj.mp hinf)
  rw [Code.isNameRun, decide_eq_true hnan, decide_eq_true hinf, h.chars.2]
  rfl

private theorem isNameRun_plain (v : Float) : isNameRun (Number.plain v).toList = false := by
  have htext := Number.plainText v
  generalize (Number.plain v).toList = cs at htext ⊢
  cases htext with
  | nan => rfl
  | infinite => rfl
  | negative => rfl
  | digits hd =>
    rw [isNameRun, List.head?_cons, Option.any_some, Token.not_isWordStart_of_isDigit hd]
    rfl

/-- The kind of the expression that a text starts with, by its first run and what follows. -/
def shapeAt (lead : List Char) (next : Option Char) : Shape :=
  if next = some '@' then .slot
  else if next = some '(' then if lead = [] then .group else .function
  else if isNameRun lead then .source
  else .number

private theorem shapeAt_function {lead : List Char} (h : lead ≠ []) :
    shapeAt lead (some '(') = .function := by
  rw [shapeAt, if_neg (by decide), if_pos rfl, if_neg h]

private theorem shapeAt_other {lead : List Char} {next : Option Char} (hslot : next ≠ some '@')
    (hparen : next ≠ some '(') :
    shapeAt lead next = if isNameRun lead then .source else .number := by
  rw [shapeAt, if_neg hslot, if_neg hparen]

section Parts

variable (c : Code)

theorem toList_band (e : Expr) :
    (c.bandText (some e)).toList = '[' :: (c.exprChars e ++ [']']) := by
  simp [bandText, exprChars]

/-- A coordinate. -/
def placeChars (p : Place Expr) : List Char :=
  (if p.relative then ['$'] else []) ++ c.exprChars p.value

theorem toList_point (p : Point Expr) :
    (c.pointText (some p)).toList =
      '[' :: (c.placeChars p.x ++ ',' :: ' ' :: (c.placeChars p.y ++ [']'])) := by
  obtain ⟨⟨r, x⟩, ⟨s, y⟩⟩ := p
  cases r <;> cases s <;>
    simp [pointText, placesText, placeText, placeChars, exprChars]

end Parts

section Start

variable {c : Code} {e : Expr} {rest : List Char}

theorem isName_source {image : ℕ} {band : Option Expr} {point : Option (Point Expr)}
    (h : c.Named (Expr.read image band point).references) : IsName (c.sourceName image) :=
  h _ List.mem_cons_self _ rfl

/-- A number, a name, or nothing before a bracket. -/
theorem lead_cases (h : c.Named e.references) :
    (∃ v, e = .const v) ∨ IsWord (e.lead c) ∨ e.lead c = [] ∧ e.shape = .group := by
  cases e with
  | const v => exact .inl ⟨v, rfl⟩
  | load slot =>
    cases slot with
    | image i => exact .inr (.inl (h _ List.mem_cons_self _ rfl).chars.1)
    | pixel i => exact .inr (.inl (h _ List.mem_cons_self _ rfl).chars.1)
  | read image band point => exact .inr (.inl (isName_source h).chars.1)
  | position f => exact .inr (.inl (isWord_builtin (.position f)))
  | call f args => exact .inr (.inl (isWord_builtin (.scalar f)))
  | statistic f args => exact .inr (.inl (isWord_builtin (.statistic f)))
  | unary | binary | select => exact .inr (.inr ⟨rfl, rfl⟩)

theorem isLead_lead (h : c.Named e.references) : ∀ d ∈ e.lead c, isLead d = true := by
  rcases lead_cases h with ⟨v, rfl⟩ | hword | ⟨hnil, -⟩
  · exact isLead_plain v
  · exact hword.isLead
  · rw [hnil]
    exact fun _ hd => absurd hd List.not_mem_nil

private theorem head?_access (band : Option Expr) (point : Option (Point Expr)) (rest : List Char) :
    (c.accessChars band point ++ rest).head? = rest.head? ∨
      (c.accessChars band point ++ rest).head? = some '[' := by
  rw [accessChars]
  cases band with
  | some e => exact .inr (by rw [toList_band]; rfl)
  | none =>
    cases point with
    | some p => exact .inr (by rw [toList_point]; simp [bandText])
    | none => exact .inl (by simp [bandText, pointText])

/-- A bracket or the mark of a slot follows the first run, or what comes after the expression. -/
theorem head?_tail (e : Expr) (rest : List Char) : (e.tail c ++ rest).head? = rest.head? ∨
    (e.tail c ++ rest).head? ∈ [some '[', some '(', some '@'] := by
  cases e with
  | const v => exact .inl rfl
  | load slot => cases slot <;> exact .inr (by simp [Expr.tail])
  | read image band point =>
    refine (head?_access band point rest).imp_right fun hhead => ?_
    rw [Expr.tail, hhead]
    exact List.mem_cons_self
  | position | unary | binary | select | call | statistic => exact .inr (by simp [Expr.tail])

theorem tail_group (h : e.shape = .group) : ∃ ds, e.tail c = '(' :: ds := by
  cases e with
  | unary | binary | select => exact ⟨_, rfl⟩
  | const | load | read | position | call | statistic => cases h

/-- What follows the first run is in no number or name. -/
theorem not_isLead_tail (e : Expr) (hrest : Ends rest) :
    ∀ d, (e.tail c ++ rest).head? = some d → isLead d = false := by
  intro d hd
  rcases head?_tail e rest with hhead | hhead
  · exact hrest.not_isLead d (hhead ▸ hd)
  · rw [hd] at hhead
    simp only [List.mem_cons, Option.some_inj, List.not_mem_nil, or_false] at hhead
    rcases hhead with rfl | rfl | rfl <;> rfl

theorem shapeAt_expr (h : c.Named e.references) (hrest : Ends rest) :
    shapeAt (e.lead c) (e.tail c ++ rest).head? = e.shape := by
  cases e with
  | const v =>
    have hnext : shapeAt (Number.plain v).toList rest.head? = _ :=
      shapeAt_other (hrest.head?_ne (by decide)) (hrest.head?_ne (by decide))
    rw [isNameRun_plain] at hnext
    exact hnext
  | load slot => cases slot <;> rfl
  | read image band point =>
    have hnext : ∀ d ∉ ['[', ')', ']', ',', ' '],
        (c.accessChars band point ++ rest).head? ≠ some d := by
      intro d hd
      rw [List.mem_cons, not_or] at hd
      rcases head?_access band point rest with hhead | hhead
      · rw [hhead]
        exact hrest.head?_ne hd.2
      · rw [hhead]
        exact fun heq => hd.1 (Option.some.inj heq).symm
    have hshape :
        shapeAt (c.sourceName image).toList (c.accessChars band point ++ rest).head? = _ :=
      shapeAt_other (hnext _ (by decide)) (hnext _ (by decide))
    rw [(isName_source h).isNameRun] at hshape
    exact hshape
  | position f => exact shapeAt_function (isWord_builtin (.position f)).1
  | call f args => exact shapeAt_function (isWord_builtin (.scalar f)).1
  | statistic f args => exact shapeAt_function (isWord_builtin (.statistic f)).1
  | unary op a => rfl
  | binary op a b => rfl
  | select t a b => rfl

end Start

/-- Expressions whose texts start the same text have the same kind, the same first run and the same
rest. -/
theorem start_eq {c : Code} {e e' : Expr} {rest rest' : List Char} (he : c.Named e.references)
    (he' : c.Named e'.references) (hrest : Ends rest) (hrest' : Ends rest')
    (h : c.exprChars e ++ rest = c.exprChars e' ++ rest') :
    e.shape = e'.shape ∧ e.lead c = e'.lead c ∧ e.tail c ++ rest = e'.tail c ++ rest' := by
  rw [exprChars_eq, exprChars_eq, List.append_assoc, List.append_assoc] at h
  obtain ⟨hlead, htail⟩ := runs_eq (isLead_lead he) (isLead_lead he')
    (not_isLead_tail e hrest) (not_isLead_tail e' hrest') h
  refine ⟨?_, hlead, htail⟩
  rw [← shapeAt_expr he hrest, hlead, htail, shapeAt_expr he' hrest']

end RasterScript.Code
