import RasterScript.Code
import RasterScript.Failure

/-! Running code at one pixel. -/
namespace RasterScript

open Code (Slot Place Point Items Argument)

/-- Bounds as code sees them. Their last column and row have to be computed. -/
structure Bounds where
  extent : Extent
  maxX : Except Failure Int := .ok extent.maxX
  maxY : Except Failure Int := .ok extent.maxY

/-- What code can see of the world: where it runs, samples of sources, and the bounds. -/
structure Environment where
  x : Float
  y : Float
  /-- The sample of a source, given the band and the world position. -/
  sample : (image : Nat) → (band x y : Float) → Except Failure Float
  bounds : Option Bounds

/-- What code can change. Image values outlive the run. -/
structure Memory where
  imageValues : List Float
  pixelValues : List Float
  lists : List (List Float)
  outputs : List (Option Float)
deriving DecidableEq, Repr

namespace Memory

/-- Pixel values are zero, lists empty, and nothing is written. -/
def fresh (c : Code) (imageValues : List Float) : Memory where
  imageValues := imageValues
  pixelValues := List.replicate c.pixelSlots.length 0
  lists := List.replicate c.listSlots.length []
  outputs := List.replicate c.destinations.length none

def load (m : Memory) : Slot → Float
  | .image i => m.imageValues.getD i 0
  | .pixel i => m.pixelValues.getD i 0

def store (m : Memory) (slot : Slot) (value : Float) : Memory :=
  match slot with
  | .image i => { m with imageValues := m.imageValues.set i value }
  | .pixel i => { m with pixelValues := m.pixelValues.set i value }

def loadList (m : Memory) (i : Nat) : List Float := m.lists.getD i []

def storeList (m : Memory) (i : Nat) (values : List Float) : Memory :=
  { m with lists := m.lists.set i values }

def write (m : Memory) (image : Nat) (value : Float) : Memory :=
  { m with outputs := m.outputs.set image (some value) }

end Memory

namespace Environment

/-- The value of a position function; those of the bounds need bounds. -/
def position (env : Environment) (f : PositionFunction) : Except Failure Float :=
  match f, env.bounds with
  | .x, _ => .ok env.x
  | .y, _ => .ok env.y
  | _, none => .error .boundsNotSet
  | .xmin, some b => .ok (Float.ofInt b.extent.minX)
  | .ymin, some b => .ok (Float.ofInt b.extent.minY)
  | .xmax, some b => b.maxX.map Float.ofInt
  | .ymax, some b => b.maxY.map Float.ofInt
  | .width, some b => .ok (Float.ofNat b.extent.width)
  | .height, some b => .ok (Float.ofNat b.extent.height)

end Environment

namespace Machine

open Number (flag truthy)

def unary (op : UnaryOp) (a : Float) : Float :=
  match op with
  | .neg => -a
  | .plus => a
  | .not => flag (!truthy a)

/-- The value of an operator whose operands are both known. A square is one multiplication. -/
def binary (op : BinaryOp) (a b : Float) : Float :=
  match op with
  | .add => a + b
  | .sub => a - b
  | .mul => a * b
  | .div => a / b
  | .mod => Number.remainder a b
  | .pow => if b == 2 then a * a else Float.pow a b
  | .eq => flag (a == b)
  | .ne => flag (a != b)
  | .lt => flag (a < b)
  | .le => flag (a ≤ b)
  | .gt => flag (b < a)
  | .ge => flag (b ≤ a)
  | .and => flag (truthy a && truthy b)
  | .or => flag (truthy a || truthy b)
  | .xor => flag (truthy a != truthy b)

/-- The left operand's truth that already decides an operator. -/
def deciding (op : BinaryOp) (a : Float) : Bool :=
  match op with
  | .and => !truthy a
  | .or => truthy a
  | _ => false

mutual

/-- The value of an expression. Operands are evaluated from left to right, and a right operand of
`and` and `or` only if the left one does not decide. -/
def eval (env : Environment) (m : Memory) : Code.Expr → Except Failure Float
  | .const v => .ok v
  | .load slot => .ok (m.load slot)
  | .read image band point => do
    let band ← evalBand env m band
    let (x, y) ← evalPoint env m point
    env.sample image band x y
  | .position f => env.position f
  | .unary op a => return unary op (← eval env m a)
  | .binary op a b => do
    let va ← eval env m a
    if deciding op va then return flag (truthy va)
    else return binary op va (← eval env m b)
  | .select t a b => do
    if truthy (← eval env m t) then eval env m a else eval env m b
  | .call f args => return f.apply (← evalAll env m args)
  | .statistic f args => return f.apply (← evalArguments env m args)

def evalAll (env : Environment) (m : Memory) : List Code.Expr → Except Failure (List Float)
  | [] => .ok []
  | e :: es => do
    let v ← eval env m e
    let vs ← evalAll env m es
    return v :: vs

def evalBand (env : Environment) (m : Memory) : Option Code.Expr → Except Failure Float
  | none => .ok 0
  | some e => eval env m e

def evalPoint (env : Environment) (m : Memory) :
    Option (Point Code.Expr) → Except Failure (Float × Float)
  | none => .ok (env.x, env.y)
  | some p => evalPlaces env m p

def evalPlaces (env : Environment) (m : Memory) :
    Point Code.Expr → Except Failure (Float × Float)
  | ⟨x, y⟩ => do
    let vx ← evalPlace env m env.x x
    let vy ← evalPlace env m env.y y
    return (vx, vy)

def evalPlace (env : Environment) (m : Memory) (here : Float) :
    Place Code.Expr → Except Failure Float
  | ⟨relative, value⟩ => do
    let v ← eval env m value
    return if relative then here + v else v

def evalItems (env : Environment) (m : Memory) : Items Code.Expr → Except Failure (List Float)
  | .slot i => .ok (m.loadList i)
  | .literal items => evalAll env m items

def evalArgument (env : Environment) (m : Memory) :
    Argument Code.Expr → Except Failure (List Float)
  | .one e => return [← eval env m e]
  | .many items => evalItems env m items

def evalArguments (env : Environment) (m : Memory) :
    List (Argument Code.Expr) → Except Failure (List Float)
  | [] => .ok []
  | a :: as => do
    let vs ← evalArgument env m a
    let ws ← evalArguments env m as
    return vs ++ ws

end

/-- How a statement ends: the next one follows, the innermost loop is left, or the run stops. -/
inductive Outcome where
  | next
  | leave
  | stop (halt : Halt)
deriving DecidableEq, Repr

abbrev Effect := Memory → Memory × Outcome

def withValue {α : Type} (value : Except Failure α) (m : Memory) (k : α → Memory × Outcome) :
    Memory × Outcome :=
  match value with
  | .ok a => k a
  | .error f => (m, .stop (.failed f))

/-- Run a body as long as a test holds before each round, for at most the given number of rounds. -/
def repeatWhile (test : Memory → Except Failure Bool) (body : Effect) : Nat → Effect
  | 0, m => (m, .stop .exhausted)
  | rounds + 1, m =>
    match test m with
    | .error f => (m, .stop (.failed f))
    | .ok false => (m, .next)
    | .ok true =>
      match body m with
      | (m, .next) => repeatWhile test body rounds m
      | (m, .leave) => (m, .next)
      | stopped => stopped

def forEach (var : Slot) (body : Effect) : List Float → Effect
  | [], m => (m, .next)
  | v :: vs, m =>
    match body (m.store var v) with
    | (m, .next) => forEach var body vs m
    | (m, .leave) => (m, .next)
    | stopped => stopped

def forCount (var : Slot) (body : Effect) : Nat → Int → Effect
  | 0, _, m => (m, .next)
  | count + 1, i, m =>
    match body (m.store var (Float.ofInt i)) with
    | (m, .next) => forCount var body count (i + 1) m
    | (m, .leave) => (m, .next)
    | stopped => stopped

/-- Run a body for the integers between two bounds, both included. A bound that is no number leaves
nothing to run for. -/
def forBetween (var : Slot) (body : Effect) (low high : Float) : Effect := fun m =>
  match Number.truncate? low, Number.truncate? high with
  | some low, some high => forCount var body (high - low + 1).toNat low m
  | _, _ => (m, .next)

def goesOn (kind : LoopKind) (truth : Bool) : Bool :=
  match kind with
  | .whileTrue => truth
  | .untilTrue => !truth

mutual

/-- Run a statement; no conditional loop takes more than the given number of rounds. -/
def exec (limit : Nat) (env : Environment) : Code.Stmt → Effect
  | .store slot value => fun m =>
    withValue (eval env m value) m fun v => (m.store slot v, .next)
  | .storeList slot value => fun m =>
    withValue (evalItems env m value) m fun vs => (m.storeList slot vs, .next)
  | .write image value => fun m =>
    withValue (eval env m value) m fun v => (m.write image v, .next)
  | .cond test yes no => fun m =>
    withValue (eval env m test) m fun v =>
      if truthy v then execAll limit env yes m else execAll limit env no m
  | .loop kind test body =>
    repeatWhile (fun m => (eval env m test).map fun v => goesOn kind (truthy v))
      (execAll limit env body) limit
  | .foreachItem var items body => fun m =>
    withValue (evalItems env m items) m fun vs => forEach var (execAll limit env body) vs m
  | .foreachInt var low high body => fun m =>
    withValue (eval env m low) m fun l =>
      withValue (eval env m high) m fun h => forBetween var (execAll limit env body) l h m
  | .breakIf test => fun m =>
    withValue (eval env m test) m fun v => (m, if truthy v then .leave else .next)
  | .leave => fun m => (m, .leave)

def execAll (limit : Nat) (env : Environment) : List Code.Stmt → Effect
  | [], m => (m, .next)
  | s :: ss, m =>
    match exec limit env s m with
    | (m, .next) => execAll limit env ss m
    | ended => ended

end

/-- What a run leaves behind: the image values in any case, and the outputs if it came to its
end. -/
structure Result where
  imageValues : List Float
  outputs : Except Halt (List (Option Float))

def run (limit : Nat) (c : Code) (env : Environment) (imageValues : List Float)
    (statements : List Code.Stmt) : Result :=
  match execAll limit env statements (.fresh c imageValues) with
  | (m, .stop halt) => ⟨m.imageValues, .error halt⟩
  | (m, _) => ⟨m.imageValues, .ok m.outputs⟩

end Machine

end RasterScript
