import RasterScript.Span
import RasterScript.Diagnostic
import RasterScript.Dialect
import RasterScript.Number.Text
import RasterScript.Text.Quoted

/-! Tokens of a script: their kinds, spellings and values, and what can be wrong with a text. -/
namespace RasterScript

namespace Token

inductive Kind where
  | kwIf | kwElse | kwWhile | kwUntil | kwForeach | kwIn | kwBreakIf | kwBreak
  | kwImages | kwInit | kwOptions | kwRead | kwWrite
  | assign | plusAssign | minusAssign | starAssign | slashAssign | percentAssign
  | plus | minus | star | slash | percent | caret
  | equal | notEqual | less | lessEqual | greater | greaterEqual
  | andAnd | orOr | xor | bang | question | colon | dollar
  | comma | semicolon | lparen | rparen | lbracket | rbracket | lbrace | rbrace
  | number | ident | newline | continuation
deriving DecidableEq, Repr

namespace Kind

/-- The spelling of the kinds that have only one. -/
def spelling : Kind → List Char
  | kwIf => ['i', 'f']
  | kwElse => ['e', 'l', 's', 'e']
  | kwWhile => ['w', 'h', 'i', 'l', 'e']
  | kwUntil => ['u', 'n', 't', 'i', 'l']
  | kwForeach => ['f', 'o', 'r', 'e', 'a', 'c', 'h']
  | kwIn => ['i', 'n']
  | kwBreakIf => ['b', 'r', 'e', 'a', 'k', 'i', 'f']
  | kwBreak => ['b', 'r', 'e', 'a', 'k']
  | kwImages => ['i', 'm', 'a', 'g', 'e', 's']
  | kwInit => ['i', 'n', 'i', 't']
  | kwOptions => ['o', 'p', 't', 'i', 'o', 'n', 's']
  | kwRead => ['r', 'e', 'a', 'd']
  | kwWrite => ['w', 'r', 'i', 't', 'e']
  | assign => ['=']
  | plusAssign => ['+', '=']
  | minusAssign => ['-', '=']
  | starAssign => ['*', '=']
  | slashAssign => ['/', '=']
  | percentAssign => ['%', '=']
  | plus => ['+']
  | minus => ['-']
  | star => ['*']
  | slash => ['/']
  | percent => ['%']
  | caret => ['^']
  | equal => ['=', '=']
  | notEqual => ['!', '=']
  | less => ['<']
  | lessEqual => ['<', '=']
  | greater => ['>']
  | greaterEqual => ['>', '=']
  | andAnd => ['&', '&']
  | orOr => ['|', '|']
  | xor => ['^', '|']
  | bang => ['!']
  | question => ['?']
  | colon => [':']
  | dollar => ['$']
  | comma => [',']
  | semicolon => [';']
  | lparen => ['(']
  | rparen => [')']
  | lbracket => ['[']
  | rbracket => [']']
  | lbrace => ['\x7b']
  | rbrace => ['\x7d']
  | number | ident | newline | continuation => []

/-- Words that are not identifiers. -/
def keywords : List Kind :=
  [kwIf, kwElse, kwWhile, kwUntil, kwForeach, kwIn, kwBreakIf, kwBreak, kwImages, kwInit,
   kwOptions, kwRead, kwWrite]

/-- Operators and punctuation, the longer spellings first. -/
def symbols : List Kind :=
  [plusAssign, minusAssign, starAssign, slashAssign, percentAssign, equal, notEqual, lessEqual,
   greaterEqual, andAnd, orOr, xor,
   assign, plus, minus, star, slash, percent, caret, less, greater, bang, question, colon, dollar,
   comma, semicolon, lparen, rparen, lbracket, rbracket, lbrace, rbrace]

def isTerminator (k : Kind) : Bool := k = semicolon || k = newline

end Kind

end Token

structure Token where
  kind : Token.Kind
  text : String
  span : Span
deriving DecidableEq, Repr

namespace Token

def value (t : Token) : Float :=
  (Number.Decimal.ofSpelling (Number.Decimal.read t.text.toList).1).toFloat

def isTerminator (t : Token) : Bool := t.kind.isTerminator

def listing (t : Token) : String :=
  match t.kind with
  | .number => Number.plain t.value
  | .ident => "<ident>"
  | .newline => "<newline>"
  | .continuation => "\\"
  | k => String.ofList k.spelling

inductive Fault where
  | unexpected (text : String)
  | unterminatedComment
  /-- A continued line in a dialect that has no mark for it. -/
  | continuation (dialect : Dialect)
deriving DecidableEq, Repr

namespace Fault

def code : Fault → String
  | unexpected _ | unterminatedComment => "E0001"
  | continuation _ => "E0003"

def message : Fault → String
  | unexpected text => "unexpected character " ++ Text.quoted text
  | unterminatedComment => "unterminated block comment"
  | continuation dialect =>
    "line continuation is only valid in the extended dialect " ++
      s!"(statements in the {dialect.name} dialect may span lines freely)"

end Fault

def Fault.diagnostic (f : Located Fault) : Diagnostic :=
  ⟨some f.what.code, .error, f.span, f.what.message⟩

end Token

end RasterScript
