import RasterScript.Builtin
import RasterScript.Script

/-! The images that a script uses, by name: it reads sources in expressions and writes destinations
by assignment. A name counts as an image wherever it can be one; whether it is declared as one is
not looked at. -/
namespace RasterScript

/-- Whether a call stands for where the pixel or the bounds lie. Such a call takes no arguments. -/
def isPositionCall (f : Ident) : Bool :=
  match Builtin.ofName? f.name with
  | some (.position _) => true
  | _ => false

mutual

/-- The images that an expression uses. Constants come before images, and so do the given names of
loop variables. -/
def Expr.images (hidden : List String) : Expr → List (ImageRole × String)
  | .number _ _ => []
  | .name id _ =>
    if (constant? id.name).isSome ∨ id.name ∈ hidden then [] else [(.source, id.name)]
  | .call f args _ => if isPositionCall f then [] else exprsImages hidden args
  | .image id selectors _ => (.source, id.name) :: groupsImages hidden selectors
  | .list items _ => exprsImages hidden items
  | .unary _ a _ => a.images hidden
  | .binary _ a b _ => a.images hidden ++ b.images hidden
  | .cond t a b _ => t.images hidden ++ (a.images hidden ++ b.images hidden)

def exprsImages (hidden : List String) : List Expr → List (ImageRole × String)
  | [] => []
  | e :: es => e.images hidden ++ exprsImages hidden es

def groupsImages (hidden : List String) : List (Selector Expr) → List (ImageRole × String)
  | [] => []
  | s :: ss => groupImages hidden s ++ groupsImages hidden ss

def groupImages (hidden : List String) : Selector Expr → List (ImageRole × String)
  | ⟨cs, _⟩ => coordsImages hidden cs

def coordsImages (hidden : List String) : List (Coord Expr) → List (ImageRole × String)
  | [] => []
  | c :: cs => coordImages hidden c ++ coordsImages hidden cs

def coordImages (hidden : List String) : Coord Expr → List (ImageRole × String)
  | ⟨_, value, _⟩ => value.images hidden

end

def Source.images (hidden : List String) : Source → List (ImageRole × String)
  | .list items => items.images hidden
  | .range low high => low.images hidden ++ high.images hidden

mutual

/-- The images that a statement uses. -/
def Stmt.images (hidden : List String) : Stmt → List (ImageRole × String)
  | .assign target _ value _ => value.images hidden ++ [(.destination, target.name)]
  | .cond test yes no _ => test.images hidden ++ (yes.images hidden ++ elseImages hidden no)
  | .loop _ test body _ => test.images hidden ++ body.images hidden
  | .foreach var source body _ => source.images hidden ++ body.images (var.name :: hidden)
  | .block body _ => stmtsImages hidden body
  | .breakIf test _ => test.images hidden
  | .leave _ => []

def elseImages (hidden : List String) : Option Stmt → List (ImageRole × String)
  | none => []
  | some s => s.images hidden

def stmtsImages (hidden : List String) : List Stmt → List (ImageRole × String)
  | [] => []
  | s :: ss => s.images hidden ++ stmtsImages hidden ss

end

/-- The images that the entries of an `init` block use. -/
def Item.initImages : Item → List (ImageRole × String)
  | .init values _ => values.flatMap fun v => v.value.images []
  | _ => []

/-- The images that a statement of the script uses. -/
def Item.stmtImages : Item → List (ImageRole × String)
  | .stmt s => s.images []
  | _ => []

def Script.images (script : Script) : List (ImageRole × String) :=
  script.items.flatMap Item.initImages ++ script.items.flatMap Item.stmtImages

end RasterScript
