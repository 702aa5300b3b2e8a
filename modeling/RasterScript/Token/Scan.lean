import RasterScript.Token

/-! A text cut into pieces: blanks and comments, tokens, and stretches that are neither. -/
namespace RasterScript.Token

inductive Role where
  | blank
  | token (kind : Kind)
  | stray
  | unterminated
deriving DecidableEq, Repr

structure Piece where
  role : Role
  chars : List Char
deriving DecidableEq, Repr

def isBlank (c : Char) : Bool := c = ' ' || c = '\t' || c = '\r' || c = '\x0c'

/-- Blanks that may stand between a backslash and the end of its line. -/
def isMargin (c : Char) : Bool := c = ' ' || c = '\t' || c = '\r'

def isWordStart (c : Char) : Bool := c.isAlpha || c = '_'

def isWordChar (c : Char) : Bool := c.isAlphanum || c = '_'

def isInLine (c : Char) : Bool := c ≠ '\n'

def wordKind (word : List Char) : Kind :=
  (Kind.keywords.find? fun k => k.spelling = word).getD .ident

def symbol? (cs : List Char) : Option Kind :=
  Kind.symbols.find? fun k => k.spelling.isPrefixOf cs

/-- The number of characters up to and including the first `*/`. -/
def commentLength? : List Char → Option Nat
  | [] => none
  | '*' :: '/' :: _ => some 2
  | _ :: cs => (commentLength? cs).map (· + 1)

/-- The piece after a backslash: a continuation runs over blanks and a comment through the end of
the line. Without a line end it is a stray piece, and a comment belongs to it only if it ends the
text. -/
def afterBackslash (cs : List Char) : Role × Nat :=
  let margin := (cs.takeWhile isMargin).length
  match cs.dropWhile isMargin with
  | '\n' :: _ => (.token .continuation, margin + 1)
  | '/' :: '/' :: rest =>
    let comment := (rest.takeWhile isInLine).length
    match rest.dropWhile isInLine with
    | [] => (.stray, margin + 2 + comment)
    | _ :: _ => (.token .continuation, margin + 2 + comment + 1)
  | _ => (.stray, margin)

/-- An operator, punctuation, or a single stray character. -/
def symbolPiece (c : Char) (cs : List Char) : Role × Nat :=
  match symbol? (c :: cs) with
  | some kind => (.token kind, kind.spelling.length - 1)
  | none => (.stray, 0)

def afterSlash (cs : List Char) : Role × Nat :=
  match cs with
  | '/' :: rest => (.blank, (rest.takeWhile isInLine).length + 1)
  | '*' :: rest =>
    match commentLength? rest with
    | some n => (.blank, n + 1)
    | none => (.unterminated, cs.length)
  | _ => symbolPiece '/' cs

/-- What the piece that starts with `c` is, and how many characters of the text after `c` it
takes. -/
def leading (c : Char) (cs : List Char) : Role × Nat :=
  if isBlank c then (.blank, (cs.takeWhile isBlank).length)
  else if c = '\n' then (.token .newline, 0)
  else if isWordStart c then
    let tail := cs.takeWhile isWordChar
    (.token (wordKind (c :: tail)), tail.length)
  else if c.isDigit then
    (.token .number, cs.length - (Number.Decimal.read (c :: cs)).2.length)
  else if c = '\\' then afterBackslash cs
  else if c = '/' then afterSlash cs
  else symbolPiece c cs

/-- The pieces of a text after its first `skip` characters. -/
def piecesAfter : List Char → Nat → List Piece
  | [], _ => []
  | _ :: cs, skip + 1 => piecesAfter cs skip
  | c :: cs, 0 =>
    let (role, n) := leading c cs
    ⟨role, c :: cs.take n⟩ :: piecesAfter cs n

def pieces (cs : List Char) : List Piece := piecesAfter cs 0

def byteLength : List Char → Nat
  | [] => 0
  | c :: cs => c.utf8Size + byteLength cs

/-- Pieces with their places, from an offset on. -/
def place : Nat → List Piece → List (Located Piece)
  | _, [] => []
  | start, p :: ps =>
    let stop := start + byteLength p.chars
    ⟨p, ⟨start, stop⟩⟩ :: place stop ps

def ofPiece? (p : Located Piece) : Option Token :=
  match p.what.role with
  | .token kind => some ⟨kind, String.ofList p.what.chars, p.span⟩
  | _ => none

def Fault.ofPiece? (p : Located Piece) : Option (Located Fault) :=
  match p.what.role with
  | .stray => some ⟨.unexpected (String.ofList p.what.chars), p.span⟩
  | .unterminated => some ⟨.unterminatedComment, p.span⟩
  | _ => none

structure Scan where
  tokens : List Token
  faults : List (Located Fault)
deriving DecidableEq, Repr

/-- All tokens of a text, line ends and continuations among them. -/
def scan (text : String) : Scan :=
  let placed := place 0 (pieces text.toList)
  ⟨placed.filterMap ofPiece?, placed.filterMap Fault.ofPiece?⟩

/-- A token in the framed sequence of a dialect: line ends count only where they end statements,
and continuations never stay. -/
def isFramed (dialect : Dialect) (t : Token) : Bool :=
  match t.kind with
  | .newline => dialect.newlineTerminates
  | .continuation => false
  | _ => true

def continuationFault? (dialect : Dialect) (t : Token) : Option (Located Fault) :=
  if t.kind = .continuation ∧ dialect.continuationMark = none then
    some ⟨.continuation dialect, ⟨t.span.start, t.span.start + 1⟩⟩
  else none

/-- The tokens that the statements of a dialect are made of, and all faults in the order of the
text. -/
def Scan.frame (s : Scan) (dialect : Dialect) : Scan where
  tokens := s.tokens.filter (isFramed dialect)
  faults := (s.faults ++ s.tokens.filterMap (continuationFault? dialect)).mergeSort
    fun a b => a.span.start ≤ b.span.start

end RasterScript.Token
