/-! Nested values written one field or element a line, indented by four spaces a level. -/
namespace RasterScript.Text

/-- A value as an outline shows it. -/
inductive Outline where
  | atom (text : String)
  | list (items : List Outline)
  /-- A name with values in parentheses. -/
  | tuple (name : String) (items : List Outline)
  /-- A name with named values in braces. -/
  | record (name : String) (fields : List (String × Outline))

namespace Outline

def some (o : Outline) : Outline := tuple "Some" [o]

def indent (depth : Nat) : String := String.ofList (List.replicate (4 * depth) ' ')

/-- Lines between an opening and a closing bracket, or both brackets together if there are none. -/
def bracketed (depth : Nat) (opening closing : String) (lines : List String) : String :=
  if lines.isEmpty then opening ++ closing
  else
    opening ++ "\n" ++ String.join (lines.map fun line => indent (depth + 1) ++ line ++ ",\n") ++
      indent depth ++ closing

mutual

/-- The text of a value whose first line stands at the given depth. -/
def renderAt (depth : Nat) : Outline → String
  | atom text => text
  | list items => bracketed depth "[" "]" (itemsAt (depth + 1) items)
  | tuple name items => bracketed depth (name ++ "(") ")" (itemsAt (depth + 1) items)
  | record name fields => bracketed depth (name ++ " \x7b") "\x7d" (fieldsAt (depth + 1) fields)

def itemsAt (depth : Nat) : List Outline → List String
  | [] => []
  | o :: os => renderAt depth o :: itemsAt depth os

def fieldsAt (depth : Nat) : List (String × Outline) → List String
  | [] => []
  | f :: fs => fieldAt depth f :: fieldsAt depth fs

def fieldAt (depth : Nat) : String × Outline → String
  | (name, o) => name ++ ": " ++ renderAt depth o

end

def render (o : Outline) : String := renderAt 0 o

end Outline

end RasterScript.Text
