import RasterScript.Number.Text

/-! JSON documents: trees and the two ways to write them. Numbers and strings are kept as they are
written, so that what is never used is never judged. -/
namespace RasterScript

/-- A JSON document. A string is what stands between its quotes, escapes included. -/
inductive Json where
  | null
  | bool (value : Bool)
  | number (literal : List Char)
  | string (raw : List Char)
  | array (items : List Json)
  | object (members : List (List Char × Json))
deriving Repr

namespace Json

def hexDigits (width n : Nat) : List Char :=
  let ds := Nat.toDigits 16 n
  List.replicate (width - ds.length) '0' ++ ds

def escapeChar (c : Char) : List Char :=
  if c = '"' then ['\\', '"']
  else if c = '\\' then ['\\', '\\']
  else if c = '\n' then ['\\', 'n']
  else if c = '\r' then ['\\', 'r']
  else if c = '\t' then ['\\', 't']
  else if c.toNat = 8 then ['\\', 'b']
  else if c.toNat = 12 then ['\\', 'f']
  else if c.toNat < 32 then '\\' :: 'u' :: hexDigits 4 c.toNat
  else [c]

def escape (s : String) : List Char := s.toList.flatMap escapeChar

def ofText (s : String) : Json := string (escape s)

def ofInt (n : Int) : Json :=
  number ((if n < 0 then ['-'] else []) ++ Nat.toDigits 10 n.natAbs)

def ofNat (n : Nat) : Json := ofInt n

/-- A finite double; there is no text for the others. -/
def ofFloat (x : Float) : Json :=
  match Number.Binary.ofFloat x with
  | .finite negative m q => number (Number.Layout.file.binary (.finite negative m q))
  | _ => null

def record (members : List (String × Json)) : Json :=
  object (members.map fun (name, value) => (escape name, value))

def boolChars (b : Bool) : List Char := if b then "true".toList else "false".toList

def quote (raw : List Char) : List Char := '"' :: (raw ++ ['"'])

mutual

def chars : Json → List Char
  | null => "null".toList
  | bool b => boolChars b
  | number literal => literal
  | string raw => quote raw
  | array items => '[' :: (itemChars items ++ [']'])
  | object members => '\x7b' :: (memberChars members ++ ['\x7d'])

def itemChars : List Json → List Char
  | [] => []
  | [j] => chars j
  | j :: js => chars j ++ ',' :: itemChars js

def memberChars : List (List Char × Json) → List Char
  | [] => []
  | [m] => pairChars m
  | m :: ms => pairChars m ++ ',' :: memberChars ms

def pairChars : List Char × Json → List Char
  | (name, value) => quote name ++ ':' :: chars value

end

def compact (j : Json) : String := String.ofList j.chars

def newline (level : Nat) : List Char := '\n' :: List.replicate (2 * level) ' '

mutual

/-- The document with one item or member a line, inside the given number of levels. -/
def prettyChars (level : Nat) : Json → List Char
  | null => "null".toList
  | bool b => boolChars b
  | number literal => literal
  | string raw => quote raw
  | array [] => ['[', ']']
  | array (j :: js) => '[' :: (prettyItems (level + 1) (j :: js) ++ newline level ++ [']'])
  | object [] => ['\x7b', '\x7d']
  | object (m :: ms) =>
    '\x7b' :: (prettyMembers (level + 1) (m :: ms) ++ newline level ++ ['\x7d'])

def prettyItems (level : Nat) : List Json → List Char
  | [] => []
  | [j] => newline level ++ prettyChars level j
  | j :: js => newline level ++ prettyChars level j ++ ',' :: prettyItems level js

def prettyMembers (level : Nat) : List (List Char × Json) → List Char
  | [] => []
  | [m] => newline level ++ prettyPair level m
  | m :: ms => newline level ++ prettyPair level m ++ ',' :: prettyMembers level ms

def prettyPair (level : Nat) : List Char × Json → List Char
  | (name, value) => quote name ++ ':' :: ' ' :: prettyChars level value

end

def pretty (j : Json) : String := String.ofList (j.prettyChars 0)

end Json

end RasterScript
