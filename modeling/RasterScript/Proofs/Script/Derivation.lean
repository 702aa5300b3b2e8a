import RasterScript.Script.Parse

/-! The script grammar as derivations: which token lists are expressions, statements and scripts,
and the trees they stand for. Nothing here refers to a reader. -/
namespace RasterScript.Script.Derivation

open Token (Kind)

/-- Which bracketed groups may follow the name of an image. -/
abbrev Groups := List (Selector Expr) → Prop

/-- The name that a token spells. -/
def identOf (t : Token) : Ident := ⟨t.text, t.span⟩

/-- How tightly an operator holds its operands. `?:` is looser than all of them, with one. -/
def tightness : BinaryOp → Nat
  | .or => 2
  | .xor => 3
  | .and => 4
  | .eq | .ne => 5
  | .lt | .le | .gt | .ge => 6
  | .add | .sub => 7
  | .mul | .div | .mod => 8
  | .pow => 9

def operatorToken : BinaryOp → Kind
  | .or => .orOr
  | .xor => .xor
  | .and => .andAnd
  | .eq => .equal
  | .ne => .notEqual
  | .lt => .less
  | .le => .lessEqual
  | .gt => .greater
  | .ge => .greaterEqual
  | .add => .plus
  | .sub => .minus
  | .mul => .star
  | .div => .slash
  | .mod => .percent
  | .pow => .caret

def signToken : UnaryOp → Kind
  | .neg => .minus
  | .plus => .plus
  | .not => .bang

def assignToken : AssignOp → Kind
  | .set => .assign
  | .add => .plusAssign
  | .sub => .minusAssign
  | .mul => .starAssign
  | .div => .slashAssign
  | .mod => .percentAssign

def roleToken : ImageRole → Kind
  | .source => .kwRead
  | .destination => .kwWrite

def loopToken : LoopKind → Kind
  | .whileTrue => .kwWhile
  | .untilTrue => .kwUntil

/-- Two operands under an operator. -/
def under (op : BinaryOp) (left right : Expr) : Expr :=
  .binary op left right (left.span.join right.span)

mutual

/-- An expression: `?:` groups from the right. -/
inductive Expression (A : Groups) : List Token → Expr → Prop where
  | operators {ts e} : Operators A 2 ts e → Expression A ts e
  | choice {ts xs ys o c test yes no} : Operators A 2 ts test → o.kind = .question →
      Expression A xs yes → c.kind = .colon → Expression A ys no →
      Expression A (ts ++ o :: (xs ++ c :: ys)) (.cond test yes no (test.span.join no.span))

/-- Operands under operators of at least the given tightness, grouped from the left. -/
inductive Operators (A : Groups) : Nat → List Token → Expr → Prop where
  | operand {ts e} : Operand A ts e → Operators A 9 ts e
  | tighter {ts n e} : 2 ≤ n → n < 9 → Operators A (n + 1) ts e → Operators A n ts e
  | operator {ts xs o n op left right} : n < 9 → tightness op = n → Operators A n ts left →
      o.kind = operatorToken op → Operators A (n + 1) xs right →
      Operators A n (ts ++ o :: xs) (under op left right)

/-- Signs before a power; `^` groups from the right, and its exponent may carry signs. -/
inductive Operand (A : Groups) : List Token → Expr → Prop where
  | signed {ts o op e} : o.kind = signToken op → Operand A ts e →
      Operand A (o :: ts) (.unary op e (o.span.join e.span))
  | power {ts xs o base exponent} : Primary A ts base → o.kind = .caret → Operand A xs exponent →
      Operand A (ts ++ o :: xs) (under .pow base exponent)
  | primary {ts e} : Primary A ts e → Operand A ts e

inductive Primary (A : Groups) : List Token → Expr → Prop where
  | number {t} : t.kind = .number → Primary A [t] (.number t.value t.span)
  | name {i} : i.kind = .ident → Primary A [i] (.name (identOf i) i.span)
  | call {ts o c f args} : f.kind = .ident → o.kind = .lparen → Arguments A ts args →
      c.kind = .rparen → Primary A (f :: o :: (ts ++ [c]))
        (.call (identOf f) args (f.span.join (o.span.join c.span)))
  | image {ts i g} : i.kind = .ident → Group A ts g → A [g] →
      Primary A (i :: ts) (.image (identOf i) [g] (i.span.join g.span))
  | imageTwice {ts xs i g h} : i.kind = .ident → Group A ts g → Group A xs h → A [g, h] →
      Primary A (i :: (ts ++ xs)) (.image (identOf i) [g, h] (i.span.join h.span))
  | list {ts o c items} : o.kind = .lbracket → Arguments A ts items → c.kind = .rbracket →
      Primary A (o :: (ts ++ [c])) (.list items (o.span.join c.span))
  | paren {ts o c e} : o.kind = .lparen → Expression A ts e → c.kind = .rparen →
      Primary A (o :: (ts ++ [c])) (e.withSpan (o.span.join c.span))

/-- Expressions between commas, perhaps none. -/
inductive Arguments (A : Groups) : List Token → List Expr → Prop where
  | none : Arguments A [] []
  | some {ts xs e es} : Expression A ts e → MoreArguments A xs es → Arguments A (ts ++ xs) (e :: es)

inductive MoreArguments (A : Groups) : List Token → List Expr → Prop where
  | done : MoreArguments A [] []
  | more {ts xs c e es} : c.kind = .comma → Expression A ts e → MoreArguments A xs es →
      MoreArguments A (c :: (ts ++ xs)) (e :: es)

/-- A bracketed group: one or more coordinates between commas. -/
inductive Group (A : Groups) : List Token → Selector Expr → Prop where
  | mk {ts xs o c x more} : o.kind = .lbracket → Coordinate A ts x → MoreCoordinates A xs more →
      c.kind = .rbracket → Group A (o :: (ts ++ (xs ++ [c]))) ⟨x :: more, o.span.join c.span⟩

inductive Coordinate (A : Groups) : List Token → Coord Expr → Prop where
  | absolute {ts e} : Expression A ts e → Coordinate A ts ⟨false, e, e.span⟩
  | relative {ts d e} : d.kind = .dollar → Expression A ts e →
      Coordinate A (d :: ts) ⟨true, e, d.span.join e.span⟩

inductive MoreCoordinates (A : Groups) : List Token → List (Coord Expr) → Prop where
  | done : MoreCoordinates A [] []
  | more {ts xs c x more} : c.kind = .comma → Coordinate A ts x → MoreCoordinates A xs more →
      MoreCoordinates A (c :: (ts ++ xs)) (x :: more)

end

/-- An expression between parentheses. -/
inductive Condition (A : Groups) : List Token → Expr → Prop where
  | mk {ts o c e} : o.kind = .lparen → Expression A ts e → c.kind = .rparen →
      Condition A (o :: (ts ++ [c])) e

/-- What a `foreach` runs over. -/
inductive Iterated (A : Groups) : List Token → Source → Prop where
  | list {ts e} : Expression A ts e → Iterated A ts (.list e)
  | range {ts xs c low high} : Expression A ts low → c.kind = .colon → Expression A xs high →
      Iterated A (ts ++ c :: xs) (.range low high)

/-- Whether a statement ends in an `if` that could still take an `else`. -/
def endsOpen : Stmt → Bool
  | .cond _ _ none _ => true
  | .cond _ _ (some no) _ => endsOpen no
  | .loop _ _ body _ | .foreach _ _ body _ => endsOpen body
  | _ => false

mutual

/-- A statement. An `else` may follow line ends and belongs to the nearest open `if`, so what
stands before it does not end open. -/
inductive Statement (A : Groups) : List Token → Stmt → Prop where
  | assign {ts o i t op e} : i.kind = .ident → o.kind = assignToken op → Expression A ts e →
      t.isTerminator → Statement A (i :: o :: (ts ++ [t]))
        (.assign (identOf i) op e (i.span.join t.span))
  | cond {ts xs k test yes} : k.kind = .kwIf → Condition A ts test → Statement A xs yes →
      Statement A (k :: (ts ++ xs)) (.cond test yes none (k.span.join yes.span))
  | condElse {ts xs ys o k test yes no} {ends : List Token} : k.kind = .kwIf →
      Condition A ts test → Statement A xs yes → endsOpen yes = false →
      (∀ n ∈ ends, n.kind = .newline) → o.kind = .kwElse → Statement A ys no →
      Statement A (k :: (ts ++ (xs ++ (ends ++ o :: ys))))
        (.cond test yes (some no) (k.span.join no.span))
  | loop {ts xs k kind test body} : k.kind = loopToken kind → Condition A ts test →
      Statement A xs body →
      Statement A (k :: (ts ++ xs)) (.loop kind test body (k.span.join body.span))
  | foreach {ts xs o c i k source body} {kin : Token} : k.kind = .kwForeach → o.kind = .lparen →
      i.kind = .ident → kin.kind = .kwIn → Iterated A ts source → c.kind = .rparen →
      Statement A xs body → Statement A (k :: o :: i :: kin :: (ts ++ c :: xs))
        (.foreach (identOf i) source body (k.span.join body.span))
  | breakIf {ts k t test} : k.kind = .kwBreakIf → Condition A ts test → t.isTerminator →
      Statement A (k :: (ts ++ [t])) (.breakIf test (k.span.join t.span))
  | leave {k t} : k.kind = .kwBreak → t.isTerminator →
      Statement A [k, t] (.leave (k.span.join t.span))
  | block {ts o c body} : o.kind = .lbrace → Body A ts body → c.kind = .rbrace →
      Statement A (o :: (ts ++ [c])) (.block body (o.span.join c.span))

/-- Statements and terminators in any order. -/
inductive Body (A : Groups) : List Token → List Stmt → Prop where
  | done : Body A [] []
  | terminator {ts t body} : t.isTerminator → Body A ts body → Body A (t :: ts) body
  | statement {ts xs s body} : Statement A ts s → Body A xs body → Body A (ts ++ xs) (s :: body)

end

/-- Entries and terminators in any order. -/
inductive Entries {α : Type} (E : List Token → α → Prop) : List Token → List α → Prop where
  | done : Entries E [] []
  | terminator {ts t as} : t.isTerminator → Entries E ts as → Entries E (t :: ts) as
  | entry {ts xs a as} : E ts a → Entries E xs as → Entries E (ts ++ xs) (a :: as)

inductive ImageEntry : List Token → ImageDecl → Prop where
  | mk {i o r t role} : i.kind = .ident → o.kind = .assign → r.kind = roleToken role →
      t.isTerminator → ImageEntry [i, o, r, t] ⟨identOf i, role, i.span.join t.span⟩

inductive ValueEntry (A : Groups) : List Token → NamedValue → Prop where
  | mk {ts o i t e} : i.kind = .ident → o.kind = .assign → Expression A ts e → t.isTerminator →
      ValueEntry A (i :: o :: (ts ++ [t])) ⟨identOf i, e⟩

/-- What may stand at the top of a script. -/
inductive TopStatement (A : Groups) : List Token → Item → Prop where
  | images {ts o c k decls} : k.kind = .kwImages → o.kind = .lbrace → Entries ImageEntry ts decls →
      c.kind = .rbrace →
      TopStatement A (k :: o :: (ts ++ [c])) (.images decls (k.span.join (o.span.join c.span)))
  | init {ts o c k values} : k.kind = .kwInit → o.kind = .lbrace →
      Entries (ValueEntry A) ts values → c.kind = .rbrace →
      TopStatement A (k :: o :: (ts ++ [c])) (.init values (k.span.join (o.span.join c.span)))
  | options {ts o c k values} : k.kind = .kwOptions → o.kind = .lbrace →
      Entries (ValueEntry A) ts values → c.kind = .rbrace →
      TopStatement A (k :: o :: (ts ++ [c])) (.options values (k.span.join (o.span.join c.span)))
  | statement {ts s} : Statement A ts s → TopStatement A ts (.stmt s)

/-- A script: top statements and terminators in any order. -/
abbrev Whole (A : Groups) : List Token → List Item → Prop := Entries (TopStatement A)

/-- The empty line end that the end of a text may stand for. -/
def endLine (ts : List Token) : Token := ⟨.newline, "", endOf ts⟩

/-- A script in a dialect: where the end of the text ends a statement, it may stand for the last
terminator. -/
def InDialect (A : Groups) (dialect : Dialect) (ts : List Token) (items : List Item) : Prop :=
  Whole A ts items ∨ dialect.endTerminates ∧ Whole A (ts ++ [endLine ts]) items

/-- One or two groups of any coordinates. -/
def anyGroups : Groups := fun _ => True

/-- The groups `[band]`, `[x, y]` and `[band][x, y]`. -/
def listedGroups : Groups := fun groups =>
  groups.map (·.coords.length) ∈ [[1], [2], [1, 2]]

end RasterScript.Script.Derivation
