import RasterScript.Script
import RasterScript.Number.Text
import RasterScript.Text.Outline
import RasterScript.Text.Quoted

/-! Scripts as outlines. -/
namespace RasterScript

open Text (Outline)

def Span.outline (s : Span) : Outline := .atom s!"{s.start}..{s.stop}"

def Ident.outline (i : Ident) : Outline :=
  .record "Ident" [("name", .atom (Text.quoted i.name)), ("span", i.span.outline)]

def UnaryOp.outline : UnaryOp → Outline
  | neg => .atom "Neg"
  | plus => .atom "Plus"
  | not => .atom "Not"

def BinaryOp.outline : BinaryOp → Outline
  | add => .atom "Add"
  | sub => .atom "Sub"
  | mul => .atom "Mul"
  | div => .atom "Div"
  | mod => .atom "Mod"
  | pow => .atom "Pow"
  | eq => .atom "Eq"
  | ne => .atom "Ne"
  | lt => .atom "Lt"
  | le => .atom "Le"
  | gt => .atom "Gt"
  | ge => .atom "Ge"
  | and => .atom "And"
  | or => .atom "Or"
  | xor => .atom "Xor"

def AssignOp.outline : AssignOp → Outline
  | set => .atom "Set"
  | add => .atom "Add"
  | sub => .atom "Sub"
  | mul => .atom "Mul"
  | div => .atom "Div"
  | mod => .atom "Mod"

def ImageRole.outline : ImageRole → Outline
  | source => .atom "Source"
  | destination => .atom "Destination"

namespace Expr

def node (name : String) (kind : Outline) (span : Span) : Outline :=
  .record name [("kind", kind), ("span", span.outline)]

mutual

def outline : Expr → Outline
  | number v s => node "Expr" (.tuple "Number" [.atom (Number.Layout.tree.text v)]) s
  | name i s => node "Expr" (.tuple "Name" [i.outline]) s
  | call f args s =>
    node "Expr" (.record "Call" [("name", f.outline), ("args", .list (outlines args))]) s
  | image i selectors s =>
    node "Expr"
      (.record "ImageRead"
        [("image", i.outline), ("selectors", .list (selectorOutlines selectors))]) s
  | list items s => node "Expr" (.tuple "List" [.list (outlines items)]) s
  | unary op a s => node "Expr" (.tuple "Unary" [op.outline, outline a]) s
  | binary op a b s => node "Expr" (.tuple "Binary" [op.outline, outline a, outline b]) s
  | cond t a b s =>
    node "Expr"
      (.record "Conditional"
        [("cond", outline t), ("then_value", outline a), ("else_value", outline b)]) s

def outlines : List Expr → List Outline
  | [] => []
  | e :: es => outline e :: outlines es

def selectorOutlines : List (Selector Expr) → List Outline
  | [] => []
  | s :: ss => selectorOutline s :: selectorOutlines ss

def selectorOutline : Selector Expr → Outline
  | ⟨coords, span⟩ =>
    .record "Selector" [("coords", .list (coordOutlines coords)), ("span", span.outline)]

def coordOutlines : List (Coord Expr) → List Outline
  | [] => []
  | c :: cs => coordOutline c :: coordOutlines cs

def coordOutline : Coord Expr → Outline
  | ⟨relative, value, span⟩ =>
    .record "Coord"
      [("relative", .atom (if relative then "true" else "false")), ("value", outline value),
       ("span", span.outline)]

end

end Expr

def Source.outline : Source → Outline
  | list items => .tuple "List" [items.outline]
  | range low high => .tuple "Range" [low.outline, high.outline]

namespace Stmt

def loopName : LoopKind → String
  | .whileTrue => "While"
  | .untilTrue => "Until"

mutual

def outline : Stmt → Outline
  | assign target op value s =>
    Expr.node "Statement"
      (.tuple "Assign"
        [.record "Assign"
          [("target", target.outline), ("op", op.outline), ("value", value.outline)]]) s
  | cond test yes no s =>
    Expr.node "Statement"
      (.tuple "If"
        [.record "IfStmt"
          [("cond", test.outline), ("then_branch", outline yes),
           ("else_branch", otherOutline no)]]) s
  | loop kind test body s =>
    Expr.node "Statement"
      (.tuple (loopName kind)
        [.record "CondLoop" [("cond", test.outline), ("body", outline body)]]) s
  | foreach var source body s =>
    Expr.node "Statement"
      (.tuple "Foreach"
        [.record "Foreach"
          [("var", var.outline), ("source", source.outline), ("body", outline body)]]) s
  | block body s => Expr.node "Statement" (.tuple "Block" [.list (outlines body)]) s
  | breakIf test s => Expr.node "Statement" (.tuple "BreakIf" [test.outline]) s
  | leave s => Expr.node "Statement" (.atom "Break") s

def otherOutline : Option Stmt → Outline
  | none => .atom "None"
  | some s => .some (outline s)

def outlines : List Stmt → List Outline
  | [] => []
  | s :: ss => outline s :: outlines ss

end

end Stmt

def ImageDecl.outline (d : ImageDecl) : Outline :=
  .record "ImageDecl"
    [("name", d.ident.outline), ("role", d.role.outline), ("span", d.span.outline)]

def NamedValue.outline (v : NamedValue) : Outline :=
  .record "NamedValue" [("name", v.ident.outline), ("value", v.value.outline)]

def Item.outline : Item → Outline
  | images decls s =>
    Expr.node "Statement" (.tuple "Images" [.list (decls.map ImageDecl.outline)]) s
  | init values s =>
    Expr.node "Statement" (.tuple "Init" [.list (values.map NamedValue.outline)]) s
  | options values s =>
    Expr.node "Statement" (.tuple "Options" [.list (values.map NamedValue.outline)]) s
  | stmt s => s.outline

def Script.outline (s : Script) : Outline :=
  .record "Script" [("statements", .list (s.items.map Item.outline)), ("span", s.span.outline)]

end RasterScript
