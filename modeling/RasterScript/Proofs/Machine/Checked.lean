import RasterScript.Proofs.Code.References
import RasterScript.Proofs.Code.Simulation

/-! A machine that checks the range of every access and gives up at the first one that is out of
range. On well-formed code it never gives up, and does what the machine without checks does. -/
namespace RasterScript

open Code (Slot Place Point Items Argument Sizes Reference)
open Machine (Outcome)
open Direct (Meaning)

namespace Memory

def load? (m : Memory) : Slot → Option Float
  | .image i => m.imageValues[i]?
  | .pixel i => m.pixelValues[i]?

def store? (m : Memory) (slot : Slot) (value : Float) : Option Memory :=
  (m.load? slot).map fun _ => m.store slot value

def storeList? (m : Memory) (i : Nat) (values : List Float) : Option Memory :=
  m.lists[i]?.map fun _ => m.storeList i values

def write? (m : Memory) (image : Nat) (value : Float) : Option Memory :=
  m.outputs[image]?.map fun _ => m.write image value

end Memory

namespace Direct.Meaning

/-- A value that may be missing. -/
def ofOption {α : Type} (x : Option α) : Meaning α := ExceptT.mk (x.map .ok)

end Direct.Meaning

namespace Checked

open Number (flag truthy)

mutual

/-- The value of an expression, if all that it refers to is there. -/
def eval (sources : Nat) (env : Environment) (m : Memory) : Code.Expr → Meaning Float
  | .const v => return v
  | .load slot => .ofOption (m.load? slot)
  | .read image band point => do
    let band ← evalBand sources env m band
    let (x, y) ← evalPoint sources env m point
    if image < sources then .of (env.sample image band x y) else .none
  | .position f => .of (env.position f)
  | .unary op a => return Machine.unary op (← eval sources env m a)
  | .binary op a b => do
    let va ← eval sources env m a
    if Machine.deciding op va then return flag (truthy va)
    else return Machine.binary op va (← eval sources env m b)
  | .select t a b => do
    if truthy (← eval sources env m t) then eval sources env m a else eval sources env m b
  | .call f args => return f.apply (← evalAll sources env m args)
  | .statistic f args => return f.apply (← evalArguments sources env m args)

def evalAll (sources : Nat) (env : Environment) (m : Memory) :
    List Code.Expr → Meaning (List Float)
  | [] => return []
  | e :: es => do
    let v ← eval sources env m e
    return v :: (← evalAll sources env m es)

def evalBand (sources : Nat) (env : Environment) (m : Memory) : Option Code.Expr → Meaning Float
  | none => return 0
  | some e => eval sources env m e

def evalPoint (sources : Nat) (env : Environment) (m : Memory) :
    Option (Point Code.Expr) → Meaning (Float × Float)
  | none => return (env.x, env.y)
  | some p => evalPlaces sources env m p

def evalPlaces (sources : Nat) (env : Environment) (m : Memory) :
    Point Code.Expr → Meaning (Float × Float)
  | ⟨x, y⟩ => do
    let vx ← evalPlace sources env m env.x x
    return (vx, ← evalPlace sources env m env.y y)

def evalPlace (sources : Nat) (env : Environment) (m : Memory) (here : Float) :
    Place Code.Expr → Meaning Float
  | ⟨relative, value⟩ => do
    let v ← eval sources env m value
    return if relative then here + v else v

def evalItems (sources : Nat) (env : Environment) (m : Memory) :
    Items Code.Expr → Meaning (List Float)
  | .slot i => .ofOption m.lists[i]?
  | .literal items => evalAll sources env m items

def evalArgument (sources : Nat) (env : Environment) (m : Memory) :
    Argument Code.Expr → Meaning (List Float)
  | .one e => return [← eval sources env m e]
  | .many items => evalItems sources env m items

def evalArguments (sources : Nat) (env : Environment) (m : Memory) :
    List (Argument Code.Expr) → Meaning (List Float)
  | [] => return []
  | a :: as => do
    let vs ← evalArgument sources env m a
    return vs ++ (← evalArguments sources env m as)

end

/-- What a statement does to the memory and how it ends, if no access is out of range. -/
abbrev Effect := Memory → Option (Memory × Outcome)

/-- Go on with a value, or stop if it failed. -/
def withValue {α : Type} (value : Meaning α) (m : Memory) (k : α → Option (Memory × Outcome)) :
    Option (Memory × Outcome) :=
  match value.run with
  | none => none
  | some (.error f) => some (m, .stop (.failed f))
  | some (.ok a) => k a

/-- What follows a round of a loop. -/
def round (again : Effect) : Option (Memory × Outcome) → Option (Memory × Outcome)
  | some (m, .next) => again m
  | some (m, .leave) => some (m, .next)
  | stopped => stopped

/-- Run a body as long as a test holds before each round, for at most the given number of rounds. -/
def repeatWhile (test : Memory → Meaning Bool) (body : Effect) : Nat → Effect
  | 0, m => some (m, .stop .exhausted)
  | rounds + 1, m =>
    withValue (test m) m fun holds =>
      if holds then round (repeatWhile test body rounds) (body m) else some (m, .next)

/-- Run a body for each value in turn. -/
def forEach (var : Slot) (body : Effect) : List Float → Effect
  | [], m => some (m, .next)
  | v :: vs, m => round (forEach var body vs) ((m.store? var v).bind body)

mutual

/-- Run a statement; no conditional loop takes more than the given number of rounds. -/
def exec (sources limit : Nat) (env : Environment) : Code.Stmt → Effect
  | .store slot value => fun m =>
    withValue (eval sources env m value) m fun v => (m.store? slot v).map (·, .next)
  | .storeList slot value => fun m =>
    withValue (evalItems sources env m value) m fun vs => (m.storeList? slot vs).map (·, .next)
  | .write image value => fun m =>
    withValue (eval sources env m value) m fun v => (m.write? image v).map (·, .next)
  | .cond test yes no => fun m =>
    withValue (eval sources env m test) m fun v =>
      if truthy v then execAll sources limit env yes m else execAll sources limit env no m
  | .loop kind test body =>
    repeatWhile (fun m => return Machine.goesOn kind (truthy (← eval sources env m test)))
      (execAll sources limit env body) limit
  | .foreachItem var items body => fun m =>
    withValue (evalItems sources env m items) m fun vs =>
      forEach var (execAll sources limit env body) vs m
  | .foreachInt var low high body => fun m =>
    withValue (do return Direct.between (← eval sources env m low) (← eval sources env m high)) m
      fun vs => forEach var (execAll sources limit env body) vs m
  | .breakIf test => fun m =>
    withValue (eval sources env m test) m fun v => some (m, if truthy v then .leave else .next)
  | .leave => fun m => some (m, .leave)

/-- Run statements in turn, up to the first that does not end in the next. -/
def execAll (sources limit : Nat) (env : Environment) : List Code.Stmt → Effect
  | [], m => some (m, .next)
  | s :: ss, m =>
    match exec sources limit env s m with
    | some (m, .next) => execAll sources limit env ss m
    | ended => ended

end

/-- Run code from a fresh memory. -/
def run (limit : Nat) (c : Code) (env : Environment) (imageValues : List Float)
    (statements : List Code.Stmt) : Option Machine.Result :=
  (execAll c.sources.length limit env statements (.fresh c imageValues)).map fun
    | (m, .stop halt) => ⟨m.imageValues, .error halt⟩
    | (m, _) => ⟨m.imageValues, .ok m.outputs⟩

end Checked

/-- A memory has the given sizes. -/
structure Memory.Fits (z : Sizes) (m : Memory) : Prop where
  image : m.imageValues.length = z.image
  pixel : m.pixelValues.length = z.pixel
  lists : m.lists.length = z.lists
  outputs : m.outputs.length = z.destinations

namespace Memory.Fits

variable {z : Sizes} {m : Memory}

theorem fresh (c : Code) {values : List Float} (h : values.length = c.imageSlots.length) :
    Fits c.sizes (.fresh c values) :=
  ⟨h, List.length_replicate, List.length_replicate, List.length_replicate⟩

theorem load? (h : Fits z m) {slot : Slot} (hslot : (Reference.slot slot).inRange z) :
    m.load? slot = some (m.load slot) := by
  cases slot with
  | image i =>
    have hi : i < m.imageValues.length := h.image ▸ of_decide_eq_true hslot
    simp [Memory.load?, load, hi]
  | pixel i =>
    have hi : i < m.pixelValues.length := h.pixel ▸ of_decide_eq_true hslot
    simp [Memory.load?, load, hi]

theorem loadList (h : Fits z m) {i : Nat} (hi : (Reference.list i).inRange z) :
    m.lists[i]? = some (m.loadList i) := by
  have hi : i < m.lists.length := h.lists ▸ of_decide_eq_true hi
  simp [Memory.loadList, hi]

theorem store (h : Fits z m) (slot : Slot) (v : Float) : Fits z (m.store slot v) := by
  cases slot with
  | image i => exact { h with image := (List.length_set ..).trans h.image }
  | pixel i => exact { h with pixel := (List.length_set ..).trans h.pixel }

theorem storeList (h : Fits z m) (i : Nat) (vs : List Float) : Fits z (m.storeList i vs) :=
  { h with lists := (List.length_set ..).trans h.lists }

theorem write (h : Fits z m) (i : Nat) (v : Float) : Fits z (m.write i v) :=
  { h with outputs := (List.length_set ..).trans h.outputs }

end Memory.Fits

namespace Checked

open Memory (Fits)
open Code (AllInRange allInRange_append resume)
open Number (truthy)

/-! ### Expressions -/

section Expressions

variable {z : Sizes} {env : Environment} {m : Memory}

mutual

/-- An expression has the same value with and without checks. -/
theorem eval_eq (h : Fits z m) : ∀ e, AllInRange z e.references →
    eval z.sources env m e = .of (Machine.eval env m e)
  | .const v, _ => by
    rw [eval, Machine.eval]
    rfl
  | .load slot, hrefs => by
    rw [eval, Machine.eval, h.load? (hrefs _ List.mem_cons_self)]
    rfl
  | .read image band point, hrefs => by
    obtain ⟨hsource, hparts⟩ := List.forall_mem_cons.mp hrefs
    obtain ⟨hband, hpoint⟩ := allInRange_append.mp hparts
    rw [eval, Machine.eval, evalBand_eq h band hband, evalPoint_eq h point hpoint]
    simp only [if_pos (of_decide_eq_true hsource)]
    cases Machine.evalBand env m band with
    | error f => rfl
    | ok b => cases Machine.evalPoint env m point <;> rfl
  | .position f, _ => by rw [eval, Machine.eval]
  | .unary op a, hrefs => by
    rw [eval, Machine.eval, eval_eq h a hrefs]
    cases Machine.eval env m a <;> rfl
  | .binary op a b, hrefs => by
    obtain ⟨ha, hb⟩ := allInRange_append.mp hrefs
    rw [eval, Machine.eval, eval_eq h a ha, eval_eq h b hb]
    cases Machine.eval env m a with
    | error f => rfl
    | ok x =>
      show (if Machine.deciding op x then _ else _ : Meaning Float) =
        Meaning.of (if Machine.deciding op x then _ else _)
      split
      · rfl
      · cases Machine.eval env m b <;> rfl
  | .select t a b, hrefs => by
    obtain ⟨ht, hrest⟩ := allInRange_append.mp hrefs
    obtain ⟨ha, hb⟩ := allInRange_append.mp hrest
    rw [eval, Machine.eval, eval_eq h t ht, eval_eq h a ha, eval_eq h b hb]
    cases Machine.eval env m t with
    | error f => rfl
    | ok x =>
      show (if truthy x then _ else _ : Meaning Float) = Meaning.of (if truthy x then _ else _)
      split <;> rfl
  | .call f args, hrefs => by
    rw [eval, Machine.eval, evalAll_eq h args hrefs]
    cases Machine.evalAll env m args <;> rfl
  | .statistic f args, hrefs => by
    rw [eval, Machine.eval, evalArguments_eq h args hrefs]
    cases Machine.evalArguments env m args <;> rfl

private theorem evalAll_eq (h : Fits z m) : ∀ es, AllInRange z (Code.exprsReferences es) →
    evalAll z.sources env m es = .of (Machine.evalAll env m es)
  | [], _ => by
    rw [evalAll, Machine.evalAll]
    rfl
  | e :: es, hrefs => by
    obtain ⟨he, hes⟩ := allInRange_append.mp hrefs
    rw [evalAll, Machine.evalAll, eval_eq h e he, evalAll_eq h es hes]
    cases Machine.eval env m e with
    | error f => rfl
    | ok x => cases Machine.evalAll env m es <;> rfl

private theorem evalBand_eq (h : Fits z m) : ∀ e, AllInRange z (Code.bandReferences e) →
    evalBand z.sources env m e = .of (Machine.evalBand env m e)
  | none, _ => by
    rw [evalBand, Machine.evalBand]
    rfl
  | some e, hrefs => by rw [evalBand, Machine.evalBand, eval_eq h e hrefs]

private theorem evalPoint_eq (h : Fits z m) : ∀ p, AllInRange z (Code.pointReferences p) →
    evalPoint z.sources env m p = .of (Machine.evalPoint env m p)
  | none, _ => by
    rw [evalPoint, Machine.evalPoint]
    rfl
  | some p, hrefs => by rw [evalPoint, Machine.evalPoint, evalPlaces_eq h p hrefs]

private theorem evalPlaces_eq (h : Fits z m) : ∀ p, AllInRange z (Code.placesReferences p) →
    evalPlaces z.sources env m p = .of (Machine.evalPlaces env m p)
  | ⟨x, y⟩, hrefs => by
    obtain ⟨hx, hy⟩ := allInRange_append.mp hrefs
    rw [evalPlaces, Machine.evalPlaces, evalPlace_eq h x env.x hx, evalPlace_eq h y env.y hy]
    cases Machine.evalPlace env m env.x x with
    | error f => rfl
    | ok vx => cases Machine.evalPlace env m env.y y <;> rfl

private theorem evalPlace_eq (h : Fits z m) : ∀ p here, AllInRange z (Code.placeReferences p) →
    evalPlace z.sources env m here p = .of (Machine.evalPlace env m here p)
  | ⟨relative, value⟩, here, hrefs => by
    rw [evalPlace, Machine.evalPlace, eval_eq h value hrefs]
    cases Machine.eval env m value <;> rfl

private theorem evalItems_eq (h : Fits z m) : ∀ items, AllInRange z (Code.itemsReferences items) →
    evalItems z.sources env m items = .of (Machine.evalItems env m items)
  | .slot i, hrefs => by
    rw [evalItems, Machine.evalItems, h.loadList (hrefs _ List.mem_cons_self)]
    rfl
  | .literal items, hrefs => by rw [evalItems, Machine.evalItems, evalAll_eq h items hrefs]

private theorem evalArgument_eq (h : Fits z m) : ∀ a, AllInRange z (Code.argumentReferences a) →
    evalArgument z.sources env m a = .of (Machine.evalArgument env m a)
  | .one e, hrefs => by
    rw [evalArgument, Machine.evalArgument, eval_eq h e hrefs]
    cases Machine.eval env m e <;> rfl
  | .many items, hrefs => by rw [evalArgument, Machine.evalArgument, evalItems_eq h items hrefs]

private theorem evalArguments_eq (h : Fits z m) : ∀ as, AllInRange z (Code.argumentsReferences as) →
    evalArguments z.sources env m as = .of (Machine.evalArguments env m as)
  | [], _ => by
    rw [evalArguments, Machine.evalArguments]
    rfl
  | a :: as, hrefs => by
    obtain ⟨ha, has⟩ := allInRange_append.mp hrefs
    rw [evalArguments, Machine.evalArguments, evalArgument_eq h a ha, evalArguments_eq h as has]
    cases Machine.evalArgument env m a with
    | error f => rfl
    | ok vs => cases Machine.evalArguments env m as <;> rfl

end

end Expressions

/-! ### Statements -/

/-- Both machines end alike, in a memory of the given sizes. -/
def Agrees (z : Sizes) (r : Option (Memory × Outcome)) (q : Memory × Outcome) : Prop :=
  r = some q ∧ Fits z q.1

/-- Effects that agree wherever they start. -/
def EffectsAgree (z : Sizes) (f : Effect) (g : Machine.Effect) : Prop :=
  ∀ m, Fits z m → Agrees z (f m) (g m)

namespace Agrees

variable {z : Sizes} {m : Memory} {r : Option (Memory × Outcome)} {q : Memory × Outcome}

private theorem ended (h : Fits z m) (how : Outcome) : Agrees z (some (m, how)) (m, how) := ⟨rfl, h⟩

theorem withValue {α : Type} {value : Meaning α} {x : Except Failure α}
    {k : α → Option (Memory × Outcome)} {k' : α → Memory × Outcome}
    (hx : value = .of x) (h : Fits z m) (hk : ∀ a, Agrees z (k a) (k' a)) :
    Agrees z (Checked.withValue value m k) (Machine.withValue x m k') := by
  rw [hx]
  cases x with
  | error f => exact .ended h _
  | ok a => exact hk a

theorem round {f : Effect} {g : Machine.Effect} (hf : EffectsAgree z f g) :
    Agrees z r q → Agrees z (Checked.round f r)
      (match q with
      | (m, .next) => g m
      | (m, .leave) => (m, .next)
      | stopped => stopped) := by
  rintro ⟨rfl, hq⟩
  obtain ⟨m, how⟩ := q
  cases how with
  | next => exact hf m hq
  | leave => exact .ended hq _
  | stop halt => exact .ended hq _

theorem repeatWhile {test : Memory → Meaning Bool} {test' : Memory → Except Failure Bool}
    {body : Effect} {body' : Machine.Effect} (htest : ∀ m, Fits z m → test m = .of (test' m))
    (hbody : EffectsAgree z body body') (rounds : Nat) :
    EffectsAgree z (Checked.repeatWhile test body rounds)
      (Machine.repeatWhile test' body' rounds) := by
  induction rounds with
  | zero => exact fun m h => .ended h _
  | succ rounds ih =>
    intro m h
    rw [Checked.repeatWhile, Machine.repeatWhile, htest m h]
    cases test' m with
    | error f => exact .ended h _
    | ok holds =>
      cases holds with
      | false => exact .ended h _
      | true => exact round ih (hbody m h)

theorem forEach {body : Effect} {body' : Machine.Effect} {var : Slot}
    (hvar : (Reference.slot var).inRange z) (hbody : EffectsAgree z body body') (vs : List Float) :
    EffectsAgree z (Checked.forEach var body vs) (Machine.forEach var body' vs) := by
  induction vs with
  | nil => exact fun m h => .ended h _
  | cons v vs ih =>
    intro m h
    rw [Checked.forEach, Machine.forEach, Memory.store?, h.load? hvar]
    exact round ih (hbody _ (h.store var v))

private theorem andThen {f : Effect} {g : Machine.Effect} (hf : EffectsAgree z f g) :
    Agrees z r q → Agrees z
      (match r with
      | some (m, .next) => f m
      | ended => ended)
      (resume q g) := by
  rintro ⟨rfl, hq⟩
  obtain ⟨m, how⟩ := q
  cases how with
  | next => exact hf m hq
  | leave => exact .ended hq _
  | stop halt => exact .ended hq _

end Agrees

section Statements

variable {z : Sizes} {limit : Nat} {env : Environment}

mutual

/-- A statement whose references are all in range does the same with and without checks. -/
theorem exec_agrees : ∀ s, AllInRange z s.references →
    EffectsAgree z (exec z.sources limit env s) (Machine.exec limit env s)
  | .store slot value, hrefs => by
    intro m h
    obtain ⟨hslot, hvalue⟩ := List.forall_mem_cons.mp hrefs
    rw [exec, Machine.exec]
    refine .withValue (eval_eq h value hvalue) h fun v => ?_
    rw [Memory.store?, h.load? hslot]
    exact .ended (h.store slot v) _
  | .storeList slot value, hrefs => by
    intro m h
    obtain ⟨hslot, hvalue⟩ := List.forall_mem_cons.mp hrefs
    rw [exec, Machine.exec]
    refine .withValue (evalItems_eq h value hvalue) h fun vs => ?_
    rw [Memory.storeList?, h.loadList hslot]
    exact .ended (h.storeList slot vs) _
  | .write image value, hrefs => by
    intro m h
    obtain ⟨himage, hvalue⟩ := List.forall_mem_cons.mp hrefs
    have hlt : image < m.outputs.length := h.outputs ▸ of_decide_eq_true himage
    rw [exec, Machine.exec]
    refine .withValue (eval_eq h value hvalue) h fun v => ?_
    rw [Memory.write?, List.getElem?_eq_getElem hlt]
    exact .ended (h.write image v) _
  | .cond test yes no, hrefs => by
    intro m h
    obtain ⟨htest, hrest⟩ := allInRange_append.mp hrefs
    obtain ⟨hyes, hno⟩ := allInRange_append.mp hrest
    rw [exec, Machine.exec]
    refine .withValue (eval_eq h test htest) h fun v => ?_
    split
    · exact execAll_agrees yes hyes m h
    · exact execAll_agrees no hno m h
  | .loop kind test body, hrefs => by
    obtain ⟨htest, hbody⟩ := allInRange_append.mp hrefs
    rw [exec, Machine.exec]
    refine .repeatWhile (fun m h => ?_) (execAll_agrees body hbody) limit
    rw [eval_eq h test htest]
    cases Machine.eval env m test <;> rfl
  | .foreachItem var items body, hrefs => by
    intro m h
    obtain ⟨hvar, hrest⟩ := List.forall_mem_cons.mp hrefs
    obtain ⟨hitems, hbody⟩ := allInRange_append.mp hrest
    rw [exec, Machine.exec]
    refine .withValue (evalItems_eq h items hitems) h fun vs => ?_
    exact .forEach hvar (execAll_agrees body hbody) vs m h
  | .foreachInt var low high body, hrefs => by
    intro m h
    obtain ⟨hvar, hrest⟩ := List.forall_mem_cons.mp hrefs
    obtain ⟨hbounds, hbody⟩ := allInRange_append.mp hrest
    obtain ⟨hlow, hhigh⟩ := allInRange_append.mp hbounds
    rw [exec, Code.exec_foreachInt]
    refine .withValue ?_ h fun vs => .forEach hvar (execAll_agrees body hbody) vs m h
    rw [eval_eq h low hlow, eval_eq h high hhigh]
    cases Machine.eval env m low with
    | error f => rfl
    | ok l => cases Machine.eval env m high <;> rfl
  | .breakIf test, hrefs => by
    intro m h
    rw [exec, Machine.exec]
    exact .withValue (eval_eq h test hrefs) h fun v => .ended h _
  | .leave, _ => by
    intro m h
    rw [exec, Machine.exec]
    exact .ended h _

private theorem execAll_agrees : ∀ ss, AllInRange z (Code.stmtsReferences ss) →
    EffectsAgree z (execAll z.sources limit env ss) (Machine.execAll limit env ss)
  | [], _ => by
    intro m h
    rw [execAll, Machine.execAll]
    exact .ended h _
  | s :: ss, hrefs => by
    intro m h
    obtain ⟨hs, hss⟩ := allInRange_append.mp hrefs
    rw [execAll, Code.execAll_cons]
    exact .andThen (execAll_agrees ss hss) (exec_agrees s hs m h)

end

/-- A run is the same with and without checks, and keeps the number of image values. -/
theorem run_eq (c : Code) {statements : List Code.Stmt}
    (hrefs : AllInRange c.sizes (Code.stmtsReferences statements)) {values : List Float}
    (hvalues : values.length = c.imageSlots.length) :
    run limit c env values statements = some (Machine.run limit c env values statements) ∧
      (Machine.run limit c env values statements).imageValues.length = c.imageSlots.length := by
  have hagrees : Agrees c.sizes
      (execAll c.sources.length limit env statements (.fresh c values))
      (Machine.execAll limit env statements (.fresh c values)) :=
    execAll_agrees statements hrefs _ (Fits.fresh c hvalues)
  rw [run, Machine.run, hagrees.1]
  have hlength := hagrees.2.image
  revert hlength
  obtain ⟨m, how⟩ := Machine.execAll limit env statements (.fresh c values)
  intro hlength
  cases how with
  | next => exact ⟨rfl, hlength⟩
  | leave => exact ⟨rfl, hlength⟩
  | stop halt => exact ⟨rfl, hlength⟩

end Statements

end Checked

/-! ### Breaks stay inside loops -/

namespace Machine

variable {limit : Nat} {env : Environment} {body : Effect}

private theorem withValue_ne_leave {α : Type} {x : Except Failure α} {m : Memory}
    {k : α → Memory × Outcome} (hk : ∀ a, (k a).2 ≠ .leave) : (withValue x m k).2 ≠ .leave := by
  cases x with
  | error f => rintro ⟨⟩
  | ok a => exact hk a

/-- A loop takes the breaks of its rounds for its own. -/
theorem round_ne_leave {again : Effect} (hagain : ∀ m, (again m).2 ≠ .leave)
    (q : Memory × Outcome) :
    (match q with
    | (m, .next) => again m
    | (m, .leave) => (m, .next)
    | stopped => stopped).2 ≠ .leave := by
  obtain ⟨m, how⟩ := q
  cases how with
  | next => exact hagain m
  | leave => rintro ⟨⟩
  | stop halt => rintro ⟨⟩

private theorem repeatWhile_ne_leave (test : Memory → Except Failure Bool) (rounds : Nat)
    (m : Memory) : (repeatWhile test body rounds m).2 ≠ .leave := by
  induction rounds generalizing m with
  | zero => rintro ⟨⟩
  | succ rounds ih =>
    rw [repeatWhile]
    split
    · rintro ⟨⟩
    · rintro ⟨⟩
    · exact round_ne_leave ih _

private theorem forEach_ne_leave (var : Code.Slot) (vs : List Float) (m : Memory) :
    (forEach var body vs m).2 ≠ .leave := by
  induction vs generalizing m with
  | nil => rintro ⟨⟩
  | cons v vs ih =>
    rw [forEach]
    exact round_ne_leave ih _

mutual

/-- No break gets out of a statement whose breaks stand in loops. -/
theorem exec_ne_leave : ∀ (s : Code.Stmt) (m : Memory), s.placed false →
    (exec limit env s m).2 ≠ .leave
  | .store _ _, m, _ => by
    rw [exec]
    exact withValue_ne_leave fun _ => nofun
  | .storeList _ _, m, _ => by
    rw [exec]
    exact withValue_ne_leave fun _ => nofun
  | .write _ _, m, _ => by
    rw [exec]
    exact withValue_ne_leave fun _ => nofun
  | .cond _ yes no, m, hplaced => by
    obtain ⟨hyes, hno⟩ := (Bool.and_eq_true _ _).mp hplaced
    rw [exec]
    refine withValue_ne_leave fun v => ?_
    split
    · exact execAll_ne_leave yes m hyes
    · exact execAll_ne_leave no m hno
  | .loop _ _ _, m, _ => by
    rw [exec]
    exact repeatWhile_ne_leave _ _ m
  | .foreachItem _ _ _, m, _ => by
    rw [exec]
    exact withValue_ne_leave fun vs => forEach_ne_leave _ vs m
  | .foreachInt _ _ _ _, m, _ => by
    rw [Code.exec_foreachInt]
    exact withValue_ne_leave fun vs => forEach_ne_leave _ vs m

theorem execAll_ne_leave : ∀ (ss : List Code.Stmt) (m : Memory), Code.stmtsPlaced false ss →
    (execAll limit env ss m).2 ≠ .leave
  | [], m, _ => by
    rw [execAll]
    exact nofun
  | s :: ss, m, hplaced => by
    obtain ⟨hs, hss⟩ := (Bool.and_eq_true _ _).mp hplaced
    have hfirst := exec_ne_leave s m hs
    rw [execAll]
    split
    · exact execAll_ne_leave ss _ hss
    · exact hfirst

end

end Machine

end RasterScript
