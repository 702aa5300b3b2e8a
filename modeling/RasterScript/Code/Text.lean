import RasterScript.Code
import RasterScript.Number.Text

/-! The listing of code: one statement a line, expressions in full parentheses. -/
namespace RasterScript.Code

def slotText (c : Code) : Slot → String
  | .image i => s!"{nameAt c.imageSlots i}@i{i}"
  | .pixel i => s!"{nameAt c.pixelSlots i}@p{i}"

def listText (c : Code) (i : Nat) : String := s!"{nameAt c.listSlots i}@l{i}"

mutual

def exprText (c : Code) : Expr → String
  | .const v => Number.plain v
  | .load slot => c.slotText slot
  | .read image band point => c.sourceName image ++ c.bandText band ++ c.pointText point
  | .position f => f.name ++ "()"
  | .unary op a => "(" ++ op.symbol ++ c.exprText a ++ ")"
  | .binary op a b => "(" ++ c.exprText a ++ " " ++ op.symbol ++ " " ++ c.exprText b ++ ")"
  | .select t a b =>
    "(" ++ c.exprText t ++ " ? " ++ c.exprText a ++ " : " ++ c.exprText b ++ ")"
  | .call f args => f.name ++ "(" ++ ", ".intercalate (c.exprTexts args) ++ ")"
  | .statistic f args => f.name ++ "(" ++ ", ".intercalate (c.argumentTexts args) ++ ")"

def exprTexts (c : Code) : List Expr → List String
  | [] => []
  | e :: es => c.exprText e :: c.exprTexts es

def bandText (c : Code) : Option Expr → String
  | none => ""
  | some e => "[" ++ c.exprText e ++ "]"

def pointText (c : Code) : Option (Point Expr) → String
  | none => ""
  | some p => c.placesText p

def placesText (c : Code) : Point Expr → String
  | ⟨x, y⟩ => "[" ++ c.placeText x ++ ", " ++ c.placeText y ++ "]"

def placeText (c : Code) : Place Expr → String
  | ⟨relative, value⟩ => (if relative then "$" else "") ++ c.exprText value

def itemsText (c : Code) : Items Expr → String
  | .slot i => c.listText i
  | .literal items => "[" ++ ", ".intercalate (c.exprTexts items) ++ "]"

def argumentText (c : Code) : Argument Expr → String
  | .one e => c.exprText e
  | .many items => c.itemsText items

def argumentTexts (c : Code) : List (Argument Expr) → List String
  | [] => []
  | a :: as => c.argumentText a :: c.argumentTexts as

end

def loopWord : LoopKind → String
  | .whileTrue => "while"
  | .untilTrue => "until"

mutual

/-- The lines of a statement, each behind the indent. -/
def stmtLines (c : Code) (indent : String) : Stmt → List String
  | .store slot value => [s!"{indent}{c.slotText slot} = {c.exprText value}"]
  | .storeList slot value => [s!"{indent}{c.listText slot} = {c.itemsText value}"]
  | .write image value => [s!"{indent}write {c.destinationName image} <- {c.exprText value}"]
  | .cond test yes no =>
    [s!"{indent}if {c.exprText test}"] ++ c.blockLines (indent ++ "  ") yes ++
      if no.isEmpty then [] else [indent ++ "else"] ++ c.blockLines (indent ++ "  ") no
  | .loop kind test body =>
    [s!"{indent}{loopWord kind} {c.exprText test}"] ++ c.blockLines (indent ++ "  ") body
  | .foreachItem var items body =>
    [s!"{indent}foreach {c.slotText var} in {c.itemsText items}"] ++
      c.blockLines (indent ++ "  ") body
  | .foreachInt var low high body =>
    [s!"{indent}foreach {c.slotText var} in {c.exprText low}:{c.exprText high}"] ++
      c.blockLines (indent ++ "  ") body
  | .breakIf test => [s!"{indent}breakif {c.exprText test}"]
  | .leave => [indent ++ "break"]

def blockLines (c : Code) (indent : String) : List Stmt → List String
  | [] => []
  | s :: ss => c.stmtLines indent s ++ c.blockLines indent ss

end

def summary (c : Code) : String :=
  s!"LirScript ({c.sources.length} sources, {c.destinations.length} destinations, " ++
    s!"{c.imageSlots.length} image slots, {c.pixelSlots.length} pixel slots, " ++
    s!"{c.listSlots.length} list slots)"

def listing (c : Code) : String :=
  let outside := match c.outside with
    | some v => ["  outside = " ++ Number.plain v]
    | none => []
  let init := if c.init.isEmpty then [] else "  init:" :: c.blockLines "    " c.init
  let lines := [c.summary] ++ outside ++ init ++ ["  body:"] ++ c.blockLines "    " c.body
  String.join (lines.map (· ++ "\n"))

end RasterScript.Code
