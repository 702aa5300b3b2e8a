import RasterScript.Script
import RasterScript.Token.Reader

/-! The grammar of expressions and statements. A reader that calls itself is given a bound on the
tokens ahead and passes on a smaller one after it has read a token. -/
namespace RasterScript.Script.Grammar

open Token (Kind Reader)
open Token.Reader

/-- The operators of one level of precedence. -/
abbrev Level := Kind → Option BinaryOp

def product : Level
  | .star => some .mul
  | .slash => some .div
  | .percent => some .mod
  | _ => none

def sum : Level
  | .plus => some .add
  | .minus => some .sub
  | _ => none

def relation : Level
  | .less => some .lt
  | .lessEqual => some .le
  | .greater => some .gt
  | .greaterEqual => some .ge
  | _ => none

def equality : Level
  | .equal => some .eq
  | .notEqual => some .ne
  | _ => none

def conjunction : Level
  | .andAnd => some .and
  | _ => none

def exclusion : Level
  | .xor => some .xor
  | _ => none

def disjunction : Level
  | .orOr => some .or
  | _ => none

/-- The levels of binary operators, the loosest first. -/
def levels : List Level :=
  [disjunction, exclusion, conjunction, equality, relation, sum, product]

def sign : Kind → Option UnaryOp
  | .minus => some .neg
  | .plus => some .plus
  | .bang => some .not
  | _ => none

def assignment : Kind → Option AssignOp
  | .assign => some .set
  | .plusAssign => some .add
  | .minusAssign => some .sub
  | .starAssign => some .mul
  | .slashAssign => some .div
  | .percentAssign => some .mod
  | _ => none

def role : Kind → Option ImageRole
  | .kwRead => some .source
  | .kwWrite => some .destination
  | _ => none

def terminator : Kind → Option Unit
  | .semicolon | .newline => some ()
  | _ => none

def joined (op : BinaryOp) (left right : Expr) : Expr :=
  .binary op left right (left.span.join right.span)

def ident : Reader Ident := do
  let t ← expect .ident
  return ⟨t.text, t.span⟩

section Lists

variable {α : Type}

/-- The items after a first one, each behind a comma. -/
def commaTail (item : Reader α) : Nat → Reader (List α)
  | 0 => pure []
  | n + 1 => do
    match ← peek with
    | some .comma =>
      let _ ← expect .comma
      let first ← item
      return first :: (← commaTail item n)
    | _ => pure []

def commaList (item : Reader α) : Reader (List α) := do
  let first ← item
  return first :: (← sized (commaTail item))

/-- Items between commas up to a closing token, perhaps none. -/
def commaListUntil (close : Kind) (item : Reader α) : Reader (List α) := do
  if (← peek) = some close then pure [] else commaList item

/-- Entries up to a closing brace; terminators between them stand for nothing. -/
def entries (entry : Reader α) : Nat → Reader (List α)
  | 0 => pure []
  | n + 1 => do
    match ← peek with
    | some .rbrace => pure []
    | some .semicolon | some .newline =>
      let _ ← select terminator
      entries entry n
    | _ =>
      let first ← entry
      return first :: (← entries entry n)

def braced (entry : Reader α) : Reader (List α × Span) := do
  let opening ← expect .lbrace
  let found ← sized (entries entry)
  let closing ← expect .rbrace
  return (found, opening.span.join closing.span)

end Lists

def coord (inner : Reader Expr) : Reader (Coord Expr) := do
  if (← peek) = some .dollar then
    let mark ← expect .dollar
    let value ← inner
    return ⟨true, value, mark.span.join value.span⟩
  else
    let value ← inner
    return ⟨false, value, value.span⟩

def selector (inner : Reader Expr) : Reader (Selector Expr) := do
  let opening ← expect .lbracket
  let coords ← commaList (coord inner)
  let closing ← expect .rbracket
  return ⟨coords, opening.span.join closing.span⟩

def parenthesised {α : Type} (inner : Reader α) : Reader (α × Span) := do
  let opening ← expect .lparen
  let found ← inner
  let closing ← expect .rparen
  return (found, opening.span.join closing.span)

/-- A name, with arguments or with one or two bracketed groups after it. -/
def named (inner : Reader Expr) : Reader Expr := do
  let id ← ident
  match ← peek with
  | some .lparen =>
    let (args, parens) ← parenthesised (commaListUntil .rparen inner)
    return .call id args (id.span.join parens)
  | some .lbracket =>
    let first ← selector inner
    if (← peek) = some .lbracket then
      let second ← selector inner
      return .image id [first, second] (id.span.join second.span)
    else return .image id [first] (id.span.join first.span)
  | _ => return .name id id.span

def atom (inner : Reader Expr) : Reader Expr := do
  match ← peek with
  | some .number =>
    let t ← expect .number
    return .number t.value t.span
  | some .ident => named inner
  | some .lbracket =>
    let opening ← expect .lbracket
    let items ← commaListUntil .rbracket inner
    let closing ← expect .rbracket
    return .list items (opening.span.join closing.span)
  | some .lparen =>
    let (found, parens) ← parenthesised inner
    return found.withSpan parens
  | _ => fail

/-- Signs before a power. The exponent of a power may carry signs and powers of its own. -/
def operand (inner : Reader Expr) : Nat → Reader Expr
  | 0 => fail
  | n + 1 => do
    match (← peek).bind sign with
    | some op =>
      let (mark, _) ← select sign
      let arg ← operand inner n
      return .unary op arg (mark.span.join arg.span)
    | none =>
      let base ← atom inner
      if (← peek) = some .caret then
        let _ ← expect .caret
        let exponent ← operand inner n
        return joined .pow base exponent
      else return base

/-- Operands after a first one, grouped from the left. -/
def chain (level : Level) (next : Reader Expr) : Nat → Expr → Reader Expr
  | 0, left => pure left
  | n + 1, left => do
    match (← peek).bind level with
    | some op =>
      let _ ← select level
      let right ← next
      chain level next n (joined op left right)
    | none => return left

/-- Operands under the operators of the given levels, the loosest first. -/
def layered (tightest : Reader Expr) : List Level → Reader Expr
  | [] => tightest
  | level :: tighter => do
    let first ← layered tightest tighter
    sized fun n => chain level (layered tightest tighter) n first

/-- An expression of at most as many tokens as the bound. -/
def expression : Nat → Reader Expr
  | 0 => fail
  | n + 1 => do
    let test ← layered (sized (operand (expression n))) levels
    if (← peek) = some .question then
      let _ ← expect .question
      let yes ← expression n
      let _ ← expect .colon
      let no ← expression n
      return .cond test yes no (test.span.join no.span)
    else return test

def expr : Reader Expr := sized expression

def condition : Reader Expr := do
  let (test, _) ← parenthesised expr
  return test

def header : Reader (Ident × Source) := do
  let var ← ident
  let _ ← expect .kwIn
  let first ← expr
  if (← peek) = some .colon then
    let _ ← expect .colon
    let high ← expr
    return (var, .range first high)
  else return (var, .list first)

/-- Skip the line ends before an `else`, if there is one. -/
def elseAhead : Reader Bool := fun ts =>
  match ts.dropWhile fun t => t.kind = .newline with
  | t :: rest => if t.kind = .kwElse then .read true rest else .read false ts
  | [] => .read false ts

/-- A statement of at most as many tokens as the bound. -/
def statement : Nat → Reader Stmt
  | 0 => fail
  | n + 1 => do
    match ← peek with
    | some .ident =>
      let target ← ident
      let (_, op) ← select assignment
      let value ← expr
      let (last, _) ← select terminator
      return .assign target op value (target.span.join last.span)
    | some .kwIf =>
      let first ← expect .kwIf
      let test ← condition
      let yes ← statement n
      if ← elseAhead then
        let no ← statement n
        return .cond test yes (some no) (first.span.join no.span)
      else return .cond test yes none (first.span.join yes.span)
    | some .kwWhile =>
      let first ← expect .kwWhile
      let test ← condition
      let body ← statement n
      return .loop .whileTrue test body (first.span.join body.span)
    | some .kwUntil =>
      let first ← expect .kwUntil
      let test ← condition
      let body ← statement n
      return .loop .untilTrue test body (first.span.join body.span)
    | some .kwForeach =>
      let first ← expect .kwForeach
      let ((var, source), _) ← parenthesised header
      let body ← statement n
      return .foreach var source body (first.span.join body.span)
    | some .kwBreakIf =>
      let first ← expect .kwBreakIf
      let test ← condition
      let (last, _) ← select terminator
      return .breakIf test (first.span.join last.span)
    | some .kwBreak =>
      let first ← expect .kwBreak
      let (last, _) ← select terminator
      return .leave (first.span.join last.span)
    | some .lbrace =>
      let (body, span) ← braced (statement n)
      return .block body span
    | _ => fail

def imageDecl : Reader ImageDecl := do
  let id ← ident
  let _ ← expect .assign
  let (_, role) ← select role
  let (last, _) ← select terminator
  return ⟨id, role, id.span.join last.span⟩

def namedValue : Reader NamedValue := do
  let id ← ident
  let _ ← expect .assign
  let value ← expr
  let _ ← select terminator
  return ⟨id, value⟩

def item : Reader Item := do
  match ← peek with
  | some .kwImages =>
    let first ← expect .kwImages
    let (decls, span) ← braced imageDecl
    return .images decls (first.span.join span)
  | some .kwInit =>
    let first ← expect .kwInit
    let (values, span) ← braced namedValue
    return .init values (first.span.join span)
  | some .kwOptions =>
    let first ← expect .kwOptions
    let (values, span) ← braced namedValue
    return .options values (first.span.join span)
  | _ => return .stmt (← sized statement)

end RasterScript.Script.Grammar
