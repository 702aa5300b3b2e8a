import RasterScript.Json

/-! JSON documents read from text. Nothing but blanks may follow the document. -/
namespace RasterScript.Json

def isBlank (c : Char) : Bool := c = ' ' || c = '\n' || c = '\t' || c = '\r'

def skip (cs : List Char) : List Char := cs.dropWhile isBlank

def isHex (c : Char) : Bool := c.isDigit || ('a' ≤ c && c ≤ 'f') || ('A' ≤ c && c ≤ 'F')

def isPlain (c : Char) : Bool := 32 ≤ c.toNat && c ≠ '"' && c ≠ '\\'

/-- The characters that may follow a backslash, `u` and its digits apart. -/
def isShort (c : Char) : Bool := "\"\\/bfnrt".toList.contains c

/-- The rest of a string after its opening quote, and the text after its closing quote. -/
def readString : List Char → Option (List Char × List Char)
  | [] => none
  | '"' :: cs => some ([], cs)
  | '\\' :: 'u' :: a :: b :: c :: d :: cs =>
    if [a, b, c, d].all isHex then
      (readString cs).map fun (raw, rest) => ('\\' :: 'u' :: a :: b :: c :: d :: raw, rest)
    else none
  | '\\' :: c :: cs =>
    if isShort c then (readString cs).map fun (raw, rest) => ('\\' :: c :: raw, rest) else none
  | c :: cs => if isPlain c then (readString cs).map fun (raw, rest) => (c :: raw, rest) else none

/-- Whether digits are a whole part: at least one, and no zero in front of others. -/
def isWholePart : List Char → Bool
  | [] => false
  | ['0'] => true
  | d :: _ => d ≠ '0'

def isNumberChar (c : Char) : Bool := c.isDigit || "+-.eE".toList.contains c

def isNegative (literal : List Char) : Bool := literal.head? = some '-'

def unsigned (literal : List Char) : List Char :=
  if isNegative literal then literal.tail else literal

def isLiteral (cs : List Char) : Bool :=
  let (spelling, rest) := Number.Decimal.read (unsigned cs)
  isWholePart spelling.whole && rest.isEmpty

/-- A number, and the text after it. No number may follow another directly. -/
def readNumber (cs : List Char) : Option (List Char × List Char) :=
  let literal := cs.takeWhile isNumberChar
  if isLiteral literal then some (literal, cs.dropWhile isNumberChar) else none

mutual

/-- A value at the start of a text, and the text after it. Every step takes a character or leaves
a level, so twice the length of the text is enough of a bound. -/
def readValue : Nat → List Char → Option (Json × List Char)
  | 0, _ => none
  | bound + 1, cs =>
    match skip cs with
    | 'n' :: 'u' :: 'l' :: 'l' :: rest => some (.null, rest)
    | 't' :: 'r' :: 'u' :: 'e' :: rest => some (.bool true, rest)
    | 'f' :: 'a' :: 'l' :: 's' :: 'e' :: rest => some (.bool false, rest)
    | '"' :: rest => (readString rest).map fun (raw, rest) => (.string raw, rest)
    | '[' :: rest =>
      match skip rest with
      | ']' :: rest => some (.array [], rest)
      | rest => (readItems bound rest).map fun (items, rest) => (.array items, rest)
    | '\x7b' :: rest =>
      match skip rest with
      | '\x7d' :: rest => some (.object [], rest)
      | rest => (readMembers bound rest).map fun (members, rest) => (.object members, rest)
    | rest => (readNumber rest).map fun (literal, rest) => (.number literal, rest)

def readItems : Nat → List Char → Option (List Json × List Char)
  | 0, _ => none
  | bound + 1, cs => do
    let (item, rest) ← readValue bound cs
    match skip rest with
    | ',' :: rest =>
      let (items, rest) ← readItems bound rest
      return (item :: items, rest)
    | ']' :: rest => return ([item], rest)
    | _ => none

def readMembers : Nat → List Char → Option (List (List Char × Json) × List Char)
  | 0, _ => none
  | bound + 1, cs => do
    let '"' :: rest := skip cs | none
    let (name, rest) ← readString rest
    let ':' :: rest := skip rest | none
    let (value, rest) ← readValue bound rest
    match skip rest with
    | ',' :: rest =>
      let (members, rest) ← readMembers bound rest
      return ((name, value) :: members, rest)
    | '\x7d' :: rest => return ([(name, value)], rest)
    | _ => none

end

def read (text : String) : Option Json :=
  let cs := text.toList
  match readValue (2 * cs.length + 2) cs with
  | some (j, rest) => if (skip rest).isEmpty then some j else none
  | none => none

/-! ### What numbers and strings stand for -/

def hexValue (c : Char) : Nat :=
  if c.isDigit then c.toNat - 48 else if c.toNat < 97 then c.toNat - 55 else c.toNat - 87

def unitOf (a b c d : Char) : Nat :=
  [a, b, c, d].foldl (fun n x => 16 * n + hexValue x) 0

def shortEscape (c : Char) : Char :=
  match c with
  | 'b' => Char.ofNat 8
  | 'f' => Char.ofNat 12
  | 'n' => '\n'
  | 'r' => '\r'
  | 't' => '\t'
  | c => c

/-- The characters of a string. A character beyond 16 bits is escaped in two halves, which must
stand together; the first argument is a half that still waits for its partner. -/
def unescape : Option Nat → List Char → Option (List Char)
  | none, [] => some []
  | some _, [] => none
  | high, '\\' :: 'u' :: a :: b :: c :: d :: cs =>
    let unit := unitOf a b c d
    match high with
    | some h =>
      if 0xdc00 ≤ unit && unit < 0xe000 then
        (unescape none cs).map
          (Char.ofNat (0x10000 + (h - 0xd800) * 0x400 + (unit - 0xdc00)) :: ·)
      else none
    | none =>
      if 0xd800 ≤ unit && unit < 0xdc00 then unescape (some unit) cs
      else if 0xdc00 ≤ unit && unit < 0xe000 then none
      else (unescape none cs).map (Char.ofNat unit :: ·)
  | some _, _ => none
  | none, '\\' :: c :: cs => (unescape none cs).map (shortEscape c :: ·)
  | none, c :: cs => (unescape none cs).map (c :: ·)

def textOf? (raw : List Char) : Option String := (unescape none raw).map String.ofList

def text? : Json → Option String
  | string raw => textOf? raw
  | _ => none

def spelling (literal : List Char) : Number.Decimal.Spelling :=
  (Number.Decimal.read (unsigned literal)).1

/-- The integer of 64 bits, with or without a sign, that a literal spells without a point, an
exponent or a negative zero. -/
def int? : Json → Option Int
  | number literal =>
    let s := spelling literal
    let n := Number.Decimal.natOfDigits s.whole
    if !s.fraction.isEmpty || !s.exponent.isEmpty then none
    else if isNegative literal then
      if 0 < n && n ≤ Number.twoTo 63 then some (-n) else none
    else if n < Number.twoTo 64 then some n else none
  | _ => none

/-- The leading digits of a literal as far as they fit 64 bits, and their power of ten. -/
structure Significand where
  digits : Nat
  exponent : Int
  full : Bool

namespace Significand

/-- A digit before the point: when there is no more room, it only counts. -/
def pushWhole (s : Significand) (c : Char) : Significand :=
  let digits := 10 * s.digits + (c.toNat - 48)
  if s.full then { s with exponent := s.exponent + 1 }
  else if digits < Number.twoTo 64 then { s with digits := digits }
  else { s with exponent := s.exponent + 1, full := true }

/-- A digit after the point: when there is no more room, it is dropped. -/
def pushFraction (s : Significand) (c : Char) : Significand :=
  let digits := 10 * s.digits + (c.toNat - 48)
  if s.full then s
  else if digits < Number.twoTo 64 then { s with digits := digits, exponent := s.exponent - 1 }
  else { s with full := true }

def ofSpelling (s : Number.Decimal.Spelling) : Significand :=
  let whole := s.whole.foldl pushWhole ⟨0, 0, false⟩
  s.fraction.foldl pushFraction { whole with full := false }

end Significand

def powerOfTen (e : Nat) : Float := Number.Decimal.toFloat ⟨1, e⟩

/-- Move the point of a double, in steps of at most 308 places. No double becomes too large, and
after a few steps to the left all are zero. -/
def scale : Nat → Float → Int → Option Float
  | 0, x, _ => some x
  | steps + 1, x, e =>
    if e.natAbs ≤ 308 then
      if 0 ≤ e then
        let y := x * powerOfTen e.natAbs
        if y.isInf then none else some y
      else some (x / powerOfTen e.natAbs)
    else if x == 0 then some x
    else if 0 ≤ e then none
    else scale steps (x / powerOfTen 308) (e + 308)

/-- The double of a literal: its leading digits, moved by its power of ten. Each of the two steps
rounds. -/
def float? : Json → Option Float
  | number literal => do
    let s := spelling literal
    let significand := Significand.ofSpelling s
    let x ← scale 4 (Float.ofNat significand.digits) (significand.exponent + s.scale)
    return if isNegative literal then -x else x
  | _ => none

end RasterScript.Json
