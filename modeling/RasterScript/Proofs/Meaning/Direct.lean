import RasterScript.Machine
import RasterScript.Script.Access

/-! The direct meaning of a script: its tree is run as it stands. Names are looked up in the scopes
around them, and what they stand for is kept by name. -/
namespace RasterScript.Direct

open Machine (Outcome)
open Number (flag truthy)

/-! ### Declared names -/

/-- What a name outside the loops stands for. -/
inductive Role where
  | source
  | destination
  /-- A variable of an `init` block, alive for a whole evaluation. -/
  | kept
  | scalar
  | list
deriving DecidableEq, Repr

/-- The names of a script outside its loops, in the order of their declarations. -/
abbrev Declared := List (String × Role)

namespace Declared

/-- A name that is already there stays what it is. -/
def declare (d : Declared) (name : String) (role : Role) : Declared :=
  if (d.lookup name).isSome then d else d ++ [(name, role)]

def names (d : Declared) (role : Role) : List String := (d.filter (·.2 = role)).map (·.1)

/-- Whether an expression inside the given loops stands for a list. -/
def isList (d : Declared) (loops : List String) : Expr → Bool
  | .list _ _ => true
  | .name id _ => id.name ∉ loops && d.lookup id.name = some .list
  | _ => false

mutual

/-- A first assignment declares a variable of the pixel. -/
def stmt (d : Declared) (loops : List String) : Stmt → Declared
  | .assign target _ value _ =>
    d.declare target.name (if d.isList loops value then .list else .scalar)
  | .cond _ yes no _ => other (stmt d loops yes) loops no
  | .loop _ _ body _ => stmt d loops body
  | .foreach var _ body _ => stmt d (var.name :: loops) body
  | .block body _ => stmts d loops body
  | .breakIf _ _ | .leave _ => d

def other (d : Declared) (loops : List String) : Option Stmt → Declared
  | none => d
  | some s => stmt d loops s

def stmts (d : Declared) (loops : List String) : List Stmt → Declared
  | [] => d
  | s :: ss => stmts (stmt d loops s) loops ss

end

def roleOf : ImageRole → Role
  | .source => .source
  | .destination => .destination

def image (d : Declared) (i : String × ImageRole) : Declared := d.declare i.1 (roleOf i.2)

def images (d : Declared) : Item → Declared
  | .images decls _ => decls.foldl (fun d i => d.image (i.ident.name, i.role)) d
  | _ => d

def inits (d : Declared) : Item → Declared
  | .init values _ => values.foldl (fun d v => d.declare v.ident.name .kept) d
  | _ => d

def statement (d : Declared) : Item → Declared
  | .stmt s => d.stmt [] s
  | _ => d

/-- The names of a script: images first, then the variables of `init` blocks, then those of the
pixel. -/
def ofScript (script : Script) (given : List (String × ImageRole)) : Declared :=
  script.items.foldl statement
    (script.items.foldl inits (script.items.foldl images (given.foldl image [])))

end Declared

/-! ### Values -/

/-- What the declared names stand for while a script runs. -/
structure Store where
  image : String → Float
  pixel : String → Float
  lists : String → List Float
  outputs : String → Option Float

/-- Change what one name stands for. -/
def update {α : Type} (f : String → α) (name : String) (a : α) : String → α :=
  fun other => if other = name then a else f other

/-- Which come first where a name is both a constant and declared. -/
inductive Precedence where
  | constants
  | scopes
deriving DecidableEq, Repr

/-- What a run is given. -/
structure Setting where
  declared : Declared
  first : Precedence
  env : Environment
  /-- The rounds that a conditional loop may take. -/
  limit : Nat

/-- One value or a list. -/
inductive Value where
  | one (x : Float)
  | many (xs : List Float)

def Value.items : Value → List Float
  | one x => [x]
  | many xs => xs

/-- What an expression stands for: a value or a failure, or nothing at all. -/
abbrev Meaning := ExceptT Failure Option

namespace Meaning

def none {α : Type} : Meaning α := ExceptT.mk Option.none

def of {α : Type} (x : Except Failure α) : Meaning α := ExceptT.mk (some x)

end Meaning

/-- A single value is needed. -/
def Value.scalar : Value → Meaning Float
  | one x => pure x
  | many _ => .none

/-- The variables of the loops around a place with their values, the innermost first. -/
abbrev Locals := List (String × Float)

/-- What a name stands for in an expression. -/
inductive Denotation where
  | value (v : Value)
  | source (index : Nat)

namespace Setting

variable (w : Setting) (locals : Locals) (st : Store)

/-- The loops around a name come first, then the variables of the pixel, then the image scope. -/
def scoped? (name : String) : Option Denotation :=
  match locals.lookup name with
  | some x => some (.value (.one x))
  | none =>
    match w.declared.lookup name with
    | some .scalar => some (.value (.one (st.pixel name)))
    | some .list => some (.value (.many (st.lists name)))
    | some .kept => some (.value (.one (st.image name)))
    | some .source => ((w.declared.names .source).findIdx? (· = name)).map .source
    | _ => none

def denotes? (name : String) : Option Denotation :=
  let constant := (constant? name).map fun x => .value (.one x)
  match w.first with
  | .constants => constant.or (w.scoped? locals st name)
  | .scopes => (w.scoped? locals st name).or constant

/-- The position that a group of coordinates gives; a relative one counts from the pixel. -/
def place : Option (Coord (Meaning Float) × Coord (Meaning Float)) → Meaning (Float × Float)
  | none => pure (w.env.x, w.env.y)
  | some (x, y) => do
    let vx ← x.value
    let vy ← y.value
    return (if x.relative then w.env.x + vx else vx, if y.relative then w.env.y + vy else vy)

/-- A sample of a source, where its groups say. -/
def read (image : Nat) (access : Access (Meaning Float)) : Meaning Float := do
  let band ← access.band.getD (pure 0)
  let (x, y) ← w.place access.position
  Meaning.of (w.env.sample image band x y)

end Setting

/-! ### Expressions -/

mutual

/-- The value of an expression. Operands are evaluated from left to right, and a right operand of
`and` and `or` only if the left one does not decide. -/
def eval (w : Setting) (locals : Locals) (st : Store) : Expr → Meaning Value
  | .number x _ => return .one x
  | .name id _ =>
    match w.denotes? locals st id.name with
    | some (.value v) => return v
    | some (.source image) => return .one (← w.read image ⟨none, none⟩)
    | none => .none
  | .call f args _ => do
    match Builtin.ofName? f.name with
    | some (.position p) => return .one (← Meaning.of (w.env.position p))
    | some (.scalar g) => return .one (g.apply (← evalScalars w locals st args))
    | some (.statistic g) => return .one (g.apply (← evalItems w locals st args))
    | none => .none
  | .image id selectors _ =>
    match w.scoped? locals st id.name, Access.ofSelectors (groups w locals st selectors) with
    | some (.source image), .ok access => return .one (← w.read image access)
    | _, _ => .none
  | .list items _ => return .many (← evalScalars w locals st items)
  | .unary op a _ => return .one (Machine.unary op (← (← eval w locals st a).scalar))
  | .binary op a b _ => do
    let x ← (← eval w locals st a).scalar
    if Machine.deciding op x then return .one (flag (truthy x))
    else return .one (Machine.binary op x (← (← eval w locals st b).scalar))
  | .cond t a b _ => do
    if truthy (← (← eval w locals st t).scalar) then
      return .one (← (← eval w locals st a).scalar)
    else return .one (← (← eval w locals st b).scalar)

def evalScalars (w : Setting) (locals : Locals) (st : Store) : List Expr → Meaning (List Float)
  | [] => return []
  | e :: es => do
    let x ← (← eval w locals st e).scalar
    return x :: (← evalScalars w locals st es)

/-- The sample that the arguments of a statistic make up. -/
def evalItems (w : Setting) (locals : Locals) (st : Store) : List Expr → Meaning (List Float)
  | [] => return []
  | e :: es => do
    let v ← eval w locals st e
    return v.items ++ (← evalItems w locals st es)

/-- Bracketed groups with the meaning of each coordinate. -/
def groups (w : Setting) (locals : Locals) (st : Store) :
    List (Selector Expr) → List (Selector (Meaning Float))
  | [] => []
  | s :: ss => group w locals st s :: groups w locals st ss

def group (w : Setting) (locals : Locals) (st : Store) :
    Selector Expr → Selector (Meaning Float)
  | ⟨cs, span⟩ => ⟨coords w locals st cs, span⟩

def coords (w : Setting) (locals : Locals) (st : Store) :
    List (Coord Expr) → List (Coord (Meaning Float))
  | [] => []
  | c :: cs => coord w locals st c :: coords w locals st cs

def coord (w : Setting) (locals : Locals) (st : Store) : Coord Expr → Coord (Meaning Float)
  | ⟨relative, value, span⟩ => ⟨relative, do (← eval w locals st value).scalar, span⟩

end

/-- The integers between two bounds, both included; none if a bound is no number. -/
def between (low high : Float) : List Float :=
  match Number.truncate? low, Number.truncate? high with
  | some low, some high =>
    (List.range (high - low + 1).toNat).map fun (i : Nat) => Float.ofInt (low + i)
  | _, _ => []

/-- The values that a `foreach` runs through. -/
def evalSource (w : Setting) (locals : Locals) (st : Store) : Source → Meaning (List Float)
  | .list items => do
    match ← eval w locals st items with
    | .many xs => return xs
    | .one _ => .none
  | .range low high => do
    let low ← (← eval w locals st low).scalar
    let high ← (← eval w locals st high).scalar
    return between low high

/-! ### Statements -/

/-- What a statement does to the store and how it ends, if it means anything. -/
abbrev Effect := Store → Option (Store × Outcome)

/-- Go on with a value, or stop if it failed. -/
def withValue {α : Type} (value : Meaning α) (st : Store) (k : α → Option (Store × Outcome)) :
    Option (Store × Outcome) :=
  match value.run with
  | none => none
  | some (.error f) => some (st, .stop (.failed f))
  | some (.ok a) => k a

/-- Run a body as long as a test holds before each round, for at most the given number of rounds. -/
def repeatWhile (test : Store → Meaning Bool) (body : Effect) : Nat → Effect
  | 0, st => some (st, .stop .exhausted)
  | rounds + 1, st =>
    withValue (test st) st fun holds =>
      if holds then
        match body st with
        | some (st, .next) => repeatWhile test body rounds st
        | some (st, .leave) => some (st, .next)
        | stopped => stopped
      else some (st, .next)

/-- Run a body for each value in turn. -/
def forEach (body : Float → Effect) : List Float → Effect
  | [], st => some (st, .next)
  | x :: xs, st =>
    match body x st with
    | some (st, .next) => forEach body xs st
    | some (st, .leave) => some (st, .next)
    | stopped => stopped

/-- Give a declared name a value that fits it. -/
def assign (w : Setting) (locals : Locals) (st : Store) (name : String) (v : Value) :
    Option Store :=
  match locals.lookup name, w.declared.lookup name, v with
  | none, some .scalar, .one x => some { st with pixel := update st.pixel name x }
  | none, some .list, .many xs => some { st with lists := update st.lists name xs }
  | none, some .kept, .one x => some { st with image := update st.image name x }
  | none, some .destination, .one x => some { st with outputs := update st.outputs name (some x) }
  | _, _, _ => none

/-- The value that an assignment gives: `v op= e` means `v = v op e`. -/
def assigned (target : Ident) (op : AssignOp) (value : Expr) : Expr :=
  match op.binary? with
  | none => value
  | some op => .binary op (.name target target.span) value value.span

mutual

/-- Run a statement inside loops whose variables have the given values. -/
def exec (w : Setting) (locals : Locals) : Stmt → Effect
  | .assign target op value _ => fun st =>
    withValue (eval w locals st (assigned target op value)) st fun v =>
      (assign w locals st target.name v).map (·, .next)
  | .cond test yes no _ => fun st =>
    withValue (do (← eval w locals st test).scalar) st fun x =>
      if truthy x then exec w locals yes st else execElse w locals no st
  | .loop kind test body _ =>
    repeatWhile
      (fun st => return Machine.goesOn kind (truthy (← (← eval w locals st test).scalar)))
      (exec w locals body) w.limit
  | .foreach var source body _ => fun st =>
    withValue (evalSource w locals st source) st fun xs =>
      forEach (fun x => exec w ((var.name, x) :: locals) body) xs st
  | .block body _ => execAll w locals body
  | .breakIf test _ => fun st =>
    withValue (do (← eval w locals st test).scalar) st fun x =>
      some (st, if truthy x then .leave else .next)
  | .leave _ => fun st => some (st, .leave)

def execElse (w : Setting) (locals : Locals) : Option Stmt → Effect
  | none => fun st => some (st, .next)
  | some s => exec w locals s

/-- Run statements in turn, up to the first that does not end in the next. -/
def execAll (w : Setting) (locals : Locals) : List Stmt → Effect
  | [] => fun st => some (st, .next)
  | s :: ss => fun st =>
    match exec w locals s st with
    | some (st, .next) => execAll w locals ss st
    | ended => ended

end

/-- Run one statement after another. -/
def andThen (first second : Effect) : Effect := fun st =>
  match first st with
  | some (st, .next) => second st
  | ended => ended

/-- Set the variables of an `init` block. -/
def execInit (w : Setting) : List NamedValue → Effect
  | [] => fun st => some (st, .next)
  | v :: vs => andThen
    (fun st =>
      withValue (eval w [] st v.value) st fun x =>
        (assign w [] st v.ident.name x).map (·, .next))
    (execInit w vs)

/-- What the items of a script do before the first pixel. -/
def execInits (w : Setting) : List Item → Effect
  | [] => fun st => some (st, .next)
  | .init values _ :: items => andThen (execInit w values) (execInits w items)
  | _ :: items => execInits w items

/-- What the items of a script do at a pixel. -/
def execBody (w : Setting) : List Item → Effect
  | [] => fun st => some (st, .next)
  | .stmt s :: items => andThen (exec w [] s) (execBody w items)
  | _ :: items => execBody w items

/-! ### Runs -/

/-- Image variables have the given values, in the given order. Scalars of the pixel are zero, lists
empty, and nothing is written. -/
def Store.start (order : List String) (values : List Float) : Store where
  image name := values.getD (order.idxOf name) 0
  pixel _ := 0
  lists _ := []
  outputs _ := none

/-- The values of the image variables, and those of the destinations if the run came to its end. -/
def Store.result (d : Declared) (order : List String) (st : Store) : Outcome → Machine.Result
  | .stop halt => ⟨order.map st.image, .error halt⟩
  | _ => ⟨order.map st.image, .ok ((d.names .destination).map st.outputs)⟩

/-- Run an effect from given values of the image variables. -/
def run (w : Setting) (order : List String) (values : List Float) (effect : Effect) :
    Option Machine.Result :=
  (effect (.start order values)).map fun (st, ended) => st.result w.declared order ended

/-! ### Hidden constants -/

/-- Whether the scopes around a place give the name of a constant another meaning. -/
def Declared.hides (d : Declared) (loops : List String) (name : String) : Bool :=
  (constant? name).isSome &&
    (loops.contains name || (d.lookup name).any fun role => role ≠ .destination)

mutual

/-- The constants that an expression names where the scopes around it hide them. -/
def hidden (d : Declared) (loops : List String) : Expr → List String
  | .number _ _ => []
  | .name id _ => if d.hides loops id.name then [id.name] else []
  | .call _ args _ => hiddenAll d loops args
  | .image _ selectors _ => hiddenGroups d loops selectors
  | .list items _ => hiddenAll d loops items
  | .unary _ a _ => hidden d loops a
  | .binary _ a b _ => hidden d loops a ++ hidden d loops b
  | .cond t a b _ => hidden d loops t ++ (hidden d loops a ++ hidden d loops b)

def hiddenAll (d : Declared) (loops : List String) : List Expr → List String
  | [] => []
  | e :: es => hidden d loops e ++ hiddenAll d loops es

def hiddenGroups (d : Declared) (loops : List String) : List (Selector Expr) → List String
  | [] => []
  | ⟨cs, _⟩ :: ss => hiddenCoords d loops cs ++ hiddenGroups d loops ss

def hiddenCoords (d : Declared) (loops : List String) : List (Coord Expr) → List String
  | [] => []
  | ⟨_, e, _⟩ :: cs => hidden d loops e ++ hiddenCoords d loops cs

end

def hiddenSource (d : Declared) (loops : List String) : Source → List String
  | .list items => hidden d loops items
  | .range low high => hidden d loops low ++ hidden d loops high

mutual

/-- The hidden constants of a statement. -/
def hiddenStmt (d : Declared) (loops : List String) : Stmt → List String
  | .assign target op value _ => hidden d loops (assigned target op value)
  | .cond test yes no _ =>
    hidden d loops test ++ (hiddenStmt d loops yes ++ hiddenElse d loops no)
  | .loop _ test body _ => hidden d loops test ++ hiddenStmt d loops body
  | .foreach var source body _ =>
    hiddenSource d loops source ++ hiddenStmt d (var.name :: loops) body
  | .block body _ => hiddenStmts d loops body
  | .breakIf test _ => hidden d loops test
  | .leave _ => []

def hiddenElse (d : Declared) (loops : List String) : Option Stmt → List String
  | none => []
  | some s => hiddenStmt d loops s

def hiddenStmts (d : Declared) (loops : List String) : List Stmt → List String
  | [] => []
  | s :: ss => hiddenStmt d loops s ++ hiddenStmts d loops ss

end

def hiddenItem (d : Declared) : Item → List String
  | .init values _ => values.flatMap fun v => hidden d [] v.value
  | .stmt s => hiddenStmt d [] s
  | _ => []

/-- The hidden constants of a script. -/
def hiddenItems (d : Declared) (items : List Item) : List String := items.flatMap (hiddenItem d)

end RasterScript.Direct
