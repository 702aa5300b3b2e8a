import Mathlib.Data.List.Nodup
import RasterScript.Proofs.Code.Values

/-! A statement and its code do the same: from a memory that holds a store, the code ends like the
statement, in a memory that holds the store at its end. -/
namespace RasterScript.Code

open Direct (Declared Role Setting Store Locals Value Meaning)
open Machine (Outcome)

/-! ### Changes of a memory -/

private theorem map_update {α : Type} {f : String → α} {names : List String} {name : String}
    {i : Nat} (hnodup : names.Nodup) (hi : names[i]? = some name) (a : α) :
    (names.map f).set i a = names.map (Direct.update f name a) := by
  obtain ⟨hlt, rfl⟩ := List.getElem?_eq_some_iff.mp hi
  refine List.ext_getElem (by simp) fun j hj hj' => ?_
  have hj : j < names.length := by simpa using hj
  rw [List.getElem_set, List.getElem_map, List.getElem_map, Direct.update]
  by_cases hij : i = j
  · subst hij
    simp
  · rw [if_neg hij, if_neg fun heq => hij (hnodup.getElem_inj_iff.mp heq).symm]

private theorem update_of_ne {α : Type} {f : String → α} {name other : String} (a : α)
    (h : other ≠ name) : Direct.update f name a other = f other := if_neg h

private theorem update_self {α : Type} (f : String → α) (name : String) (a : α) :
    Direct.update f name a name = a := if_pos rfl

section Changes

variable {D : Declared} {L : Layout} {ls : LoopSlots} {locals : Locals} {st : Store} {m : Memory}
  {name : String} {i : Nat}

theorem Holds.storeImage (h : Holds D L ls locals st m) (hL : L.Separate)
    (hi : L.image[i]? = some name) (x : Float) :
    Holds D L ls locals { st with image := Direct.update st.image name x }
      (m.store (.image i) x) :=
  { h with image := by rw [Memory.store, h.image, map_update hL.image hi] }

theorem Holds.storeList (h : Holds D L ls locals st m) (hL : L.Separate)
    (hi : L.lists[i]? = some name) (xs : List Float) :
    Holds D L ls locals { st with lists := Direct.update st.lists name xs } (m.storeList i xs) :=
  { h with lists := by rw [Memory.storeList, h.lists, map_update hL.lists hi] }

theorem Holds.write (h : Holds D L ls locals st m) (hD : (D.names .destination).Nodup)
    (hi : (D.names .destination)[i]? = some name) (x : Float) :
    Holds D L ls locals { st with outputs := Direct.update st.outputs name (some x) }
      (m.write i x) :=
  { h with outputs := by rw [Memory.write, h.outputs, map_update hD hi] }

private theorem loops_set {values : List Float} (x : Float)
    (h : List.Forall₂ (LoopAt values) ls locals) (hi : ∀ l ∈ ls, l.2 ≠ i) :
    List.Forall₂ (LoopAt (values.set i x)) ls locals := by
  induction h with
  | nil => exact .nil
  | cons hl _ ih =>
    obtain ⟨hfirst, hrest⟩ := List.forall_mem_cons.mp hi
    refine .cons ⟨hl.1, ?_⟩ (ih hrest)
    rw [List.getElem?_set_ne hfirst.symm]
    exact hl.2

theorem Holds.storePixel (h : Holds D L ls locals st m) (hL : L.Separate)
    (hi : L.pixel name = some i) (x : Float) :
    Holds D L ls locals { st with pixel := Direct.update st.pixel name x }
      (m.store (.pixel i) x) :=
  { h with
    count := (List.length_set ..).trans h.count
    pixel := by
      intro n j hj
      show (m.pixelValues.set i x)[j]? = some (Direct.update st.pixel name x n)
      by_cases hij : i = j
      · subst hij
        rw [List.getElem?_set_self (h.count ▸ hL.bound hi), hL.pixel hj hi, update_self]
      · have hne : n ≠ name := fun heq => hij (Option.some.inj (hi.symm.trans (heq ▸ hj)))
        rw [List.getElem?_set_ne hij, h.pixel hj, update_of_ne x hne]
    loops := loops_set x h.loops fun l hl heq => h.apart l hl name (heq ▸ hi) }

/-- A loop gives its variable a value in a slot of its own. -/
theorem Holds.enter (h : Holds D L ls locals st m) (hi : Fresh L ls i) (x : Float) :
    Holds D L ((name, i) :: ls) ((name, x) :: locals) st (m.store (.pixel i) x) :=
  { h with
    count := (List.length_set ..).trans h.count
    pixel := by
      intro n j hj
      have hij : i ≠ j := fun heq => hi.pixel n (heq ▸ hj)
      exact (List.getElem?_set_ne hij).trans (h.pixel hj)
    loops := .cons ⟨rfl, List.getElem?_set_self (h.count ▸ hi.lt)⟩ (loops_set x h.loops hi.loops)
    apart := List.forall_mem_cons.mpr ⟨hi.pixel, h.apart⟩ }

theorem Holds.exit {l : String × Nat} {x : String × Float}
    (h : Holds D L (l :: ls) (x :: locals) st m) : Holds D L ls locals st m :=
  { h with
    loops := (List.forall₂_cons.mp h.loops).2
    apart := fun l hl => h.apart l (List.mem_cons_of_mem _ hl) }

end Changes

/-! ### Runs of the machine -/

section Machine

variable {limit : Nat} {env : Environment}

/-- Go on after an end if it is not final. -/
def resume (q : Memory × Outcome) (k : Machine.Effect) : Memory × Outcome :=
  match q with
  | (m, .next) => k m
  | ended => ended

theorem execAll_cons (c : Stmt) (cs : List Stmt) (m : Memory) :
    Machine.execAll limit env (c :: cs) m =
      resume (Machine.exec limit env c m) (Machine.execAll limit env cs) := by
  rw [Machine.execAll]
  rfl

private theorem execAll_singleton (c : Stmt) (m : Memory) :
    Machine.execAll limit env [c] m = Machine.exec limit env c m := by
  rw [execAll_cons]
  obtain ⟨m, ended⟩ := Machine.exec limit env c m
  cases ended with
  | next => rw [resume, Machine.execAll]
  | leave => rfl
  | stop halt => rfl

private theorem resume_resume (q : Memory × Outcome) (k l : Machine.Effect) :
    resume (resume q k) l = resume q fun m => resume (k m) l := by
  obtain ⟨m, ended⟩ := q
  cases ended <;> rfl

theorem execAll_append (cs ds : List Stmt) (m : Memory) :
    Machine.execAll limit env (cs ++ ds) m =
      resume (Machine.execAll limit env cs m) (Machine.execAll limit env ds) := by
  induction cs generalizing m with
  | nil =>
    rw [List.nil_append, Machine.execAll]
    rfl
  | cons c cs ih =>
    rw [List.cons_append, execAll_cons, execAll_cons, resume_resume]
    exact congrArg (resume _) (funext ih)

/-- Counting is running through the integers. -/
theorem forCount_eq_forEach (var : Slot) (body : Machine.Effect) (count : Nat) (low : Int)
    (m : Memory) :
    Machine.forCount var body count low m =
      Machine.forEach var body
        ((List.range count).map fun (k : Nat) => Float.ofInt (low + k)) m := by
  induction count generalizing low m with
  | zero => rfl
  | succ count ih =>
    rw [List.range_succ_eq_map, List.map_cons, List.map_map, Machine.forCount, Machine.forEach,
      Int.natCast_zero, Int.add_zero]
    have hrest : ((fun (k : Nat) => Float.ofInt (low + k)) ∘ Nat.succ) =
        fun (k : Nat) => Float.ofInt (low + 1 + k) := by
      funext k
      simp only [Function.comp_apply]
      congr 1
      omega
    simp only [hrest, ih]

theorem forBetween_eq_forEach (var : Slot) (body : Machine.Effect) (low high : Float)
    (m : Memory) :
    Machine.forBetween var body low high m =
      Machine.forEach var body (Direct.between low high) m := by
  rw [Machine.forBetween, Direct.between]
  cases Number.truncate? low with
  | none => rfl
  | some low =>
    cases Number.truncate? high with
    | none => rfl
    | some high => exact forCount_eq_forEach var body _ low m

theorem exec_foreachInt (var : Slot) (low high : Expr) (body : List Stmt) (m : Memory) :
    Machine.exec limit env (.foreachInt var low high body) m =
      Machine.withValue
        (do return Direct.between (← Machine.eval env m low) (← Machine.eval env m high)) m
        fun xs => Machine.forEach var (Machine.execAll limit env body) xs m := by
  rw [Machine.exec]
  simp only [forBetween_eq_forEach]
  cases Machine.eval env m low with
  | error f => rfl
  | ok l => cases Machine.eval env m high <;> rfl

end Machine

/-! ### Ends that agree -/

/-- A statement and its code end alike, and the memory holds the store. -/
def Agrees (D : Declared) (L : Layout) (ls : LoopSlots) (locals : Locals)
    (r : Option (Store × Outcome)) (q : Memory × Outcome) : Prop :=
  ∃ st, r = some (st, q.2) ∧ Holds D L ls locals st q.1

/-- Effects that agree wherever they start. -/
def EffectsAgree (D : Declared) (L : Layout) (ls : LoopSlots) (locals : Locals)
    (f : Direct.Effect) (g : Machine.Effect) : Prop :=
  ∀ st m, Holds D L ls locals st m → Agrees D L ls locals (f st) (g m)

namespace Agrees

variable {D : Declared} {L : Layout} {ls : LoopSlots} {locals : Locals} {st : Store} {m : Memory}
  {r : Option (Store × Outcome)} {q : Memory × Outcome}

private theorem ended (h : Holds D L ls locals st m) (how : Outcome) :
    Agrees D L ls locals (some (st, how)) (m, how) :=
  ⟨st, rfl, h⟩

theorem exit {l : String × Nat} {x : String × Float} (h : Agrees D L (l :: ls) (x :: locals) r q) :
    Agrees D L ls locals r q := by
  obtain ⟨st, hr, hq⟩ := h
  exact ⟨st, hr, hq.exit⟩

/-- The code may know a value in a simpler form. -/
theorem withMapped {α β : Type} {value : Meaning α} {x : Except Failure β} {f : β → α}
    {k : α → Option (Store × Outcome)} {k' : β → Memory × Outcome}
    (hx : value = .of (x.map f)) (h : Holds D L ls locals st m)
    (hk : ∀ b, Agrees D L ls locals (k (f b)) (k' b)) :
    Agrees D L ls locals (Direct.withValue value st k) (Machine.withValue x m k') := by
  rw [hx]
  cases x with
  | error f => exact .ended h _
  | ok b => exact hk b

theorem withValue {α : Type} {value : Meaning α} {x : Except Failure α}
    {k : α → Option (Store × Outcome)} {k' : α → Memory × Outcome}
    (hx : value = .of x) (h : Holds D L ls locals st m)
    (hk : ∀ a, Agrees D L ls locals (k a) (k' a)) :
    Agrees D L ls locals (Direct.withValue value st k) (Machine.withValue x m k') := by
  rw [hx]
  cases x with
  | error f => exact .ended h _
  | ok a => exact hk a

theorem andThen {f g : Direct.Effect} {g' : Machine.Effect} (h : Agrees D L ls locals (f st) q)
    (hg : EffectsAgree D L ls locals g g') :
    Agrees D L ls locals (Direct.andThen f g st) (resume q g') := by
  obtain ⟨st, hr, hq⟩ := h
  obtain ⟨m, ended⟩ := q
  rw [Direct.andThen, hr]
  cases ended with
  | next => exact hg st m hq
  | leave => exact .ended hq _
  | stop halt => exact .ended hq _

/-- A round of a loop: the next one follows, the loop is left, or the run stops. -/
theorem round {f : Direct.Effect} {g : Machine.Effect} (hf : EffectsAgree D L ls locals f g) :
    Agrees D L ls locals r q → Agrees D L ls locals
      (match r with
      | some (st, .next) => f st
      | some (st, .leave) => some (st, .next)
      | stopped => stopped)
      (match q with
      | (m, .next) => g m
      | (m, .leave) => (m, .next)
      | stopped => stopped) := by
  rintro ⟨st, rfl, hq⟩
  obtain ⟨m, ended⟩ := q
  cases ended with
  | next => exact hf st m hq
  | leave => exact .ended hq _
  | stop halt => exact .ended hq _

theorem repeatWhile {test : Store → Meaning Bool} {test' : Memory → Except Failure Bool}
    {body : Direct.Effect} {body' : Machine.Effect}
    (htest : ∀ st m, Holds D L ls locals st m → test st = .of (test' m))
    (hbody : EffectsAgree D L ls locals body body') (rounds : Nat) :
    EffectsAgree D L ls locals (Direct.repeatWhile test body rounds)
      (Machine.repeatWhile test' body' rounds) := by
  induction rounds with
  | zero => exact fun st m h => .ended h _
  | succ rounds ih =>
    intro st m h
    rw [Direct.repeatWhile, Machine.repeatWhile, htest st m h]
    cases test' m with
    | error f => exact .ended h _
    | ok holds =>
      cases holds with
      | false => exact .ended h _
      | true => exact round ih (hbody st m h)

theorem forEach {body : Float → Direct.Effect} {body' : Machine.Effect} {var : Slot}
    (hbody : ∀ x st m, Holds D L ls locals st m →
      Agrees D L ls locals (body x st) (body' (m.store var x))) (xs : List Float) :
    EffectsAgree D L ls locals (Direct.forEach body xs) (Machine.forEach var body' xs) := by
  induction xs with
  | nil => exact fun st m h => .ended h _
  | cons x xs ih =>
    intro st m h
    exact round ih (hbody x st m h)

end Agrees

/-! ### Statements -/

theorem ImageAt.getElem? {D : Declared} {role : Role} {name : String} {i : Nat}
    (h : ImageAt D role name i) : (D.names role)[i]? = some name := by
  obtain ⟨hlt, hname, -⟩ := List.findIdx?_eq_some_iff_getElem.mp h.index
  rw [List.getElem?_eq_getElem hlt]
  simpa using hname

section Statements

variable {w : Setting} {L : Layout}

section Assignments

variable {ls : LoopSlots} {locals : Locals} {st : Store} {m : Memory}

/-- An assignment goes through, and the memory holds the new store. -/
def Assigns (w : Setting) (L : Layout) (ls : LoopSlots) (locals : Locals) (st : Store)
    (name : String) (v : Value) (m : Memory) : Prop :=
  ∃ st', Direct.assign w locals st name v = some st' ∧ Holds w.declared L ls locals st' m

theorem Assigns.agrees {name : String} {v : Value} (h : Assigns w L ls locals st name v m) :
    Agrees w.declared L ls locals ((Direct.assign w locals st name v).map (·, .next)) (m, .next) := by
  obtain ⟨st', hst, hm⟩ := h
  exact ⟨st', by rw [hst, Option.map_some], hm⟩

private theorem assigns_variable (hL : L.Separate) (h : Holds w.declared L ls locals st m)
    {name : String} {slot : Slot} (hn : ls.lookup name = none)
    (hv : VariableAt w.declared L name slot) (x : Float) :
    Assigns w L ls locals st name (.one x) (m.store slot x) := by
  cases hv with
  | pixel hd hi =>
    exact ⟨_, by simp only [Direct.assign, h.lookup_none hn, hd], h.storePixel hL hi x⟩
  | image hd hi =>
    exact ⟨_, by simp only [Direct.assign, h.lookup_none hn, hd], h.storeImage hL hi x⟩

private theorem assigns_list (hL : L.Separate) (h : Holds w.declared L ls locals st m)
    {name : String} {i : Nat} (hn : ls.lookup name = none) (hi : ListAt w.declared L name i)
    (xs : List Float) : Assigns w L ls locals st name (.many xs) (m.storeList i xs) :=
  ⟨_, by simp only [Direct.assign, h.lookup_none hn, hi.declared], h.storeList hL hi.index xs⟩

private theorem assigns_destination (hD : (w.declared.names .destination).Nodup)
    (h : Holds w.declared L ls locals st m) {name : String} {i : Nat}
    (hn : ls.lookup name = none) (hi : ImageAt w.declared .destination name i) (x : Float) :
    Assigns w L ls locals st name (.one x) (m.write i x) :=
  ⟨_, by simp only [Direct.assign, h.lookup_none hn, hi.declared], h.write hD hi.getElem? x⟩

/-- A name that is assigned with an operator stands for what its slot holds. -/
theorem coded_assigned {target : Ident} {op : AssignOp} {value : RasterScript.Expr} {slot : Slot}
    {c : Expr} (hc : constant? target.name = none) (hn : ls.lookup target.name = none)
    (hv : VariableAt w.declared L target.name slot) (hvalue : Coded w.declared L ls value c) :
    Coded w.declared L ls (Direct.assigned target op value) (stored op slot c) := by
  rw [Direct.assigned, stored]
  cases op.binary? with
  | none => exact hvalue
  | some op => exact .binary (.load hc hn hv) hvalue

private theorem assign_agrees (hL : L.Separate) (hD : (w.declared.names .destination).Nodup)
    (h : Holds w.declared L ls locals st m) {target : Ident} {op : AssignOp}
    {value : RasterScript.Expr} {span : Span} {c : Stmt}
    (hclear : Clear w (Direct.hidden w.declared (ls.map (·.1)) (Direct.assigned target op value)))
    (hc : constant? target.name = none) (hn : ls.lookup target.name = none)
    (hcode : CodedAssign w.declared L ls target op value c) :
    Agrees w.declared L ls locals (Direct.exec w locals (.assign target op value span) st)
      (Machine.exec w.limit w.env c m) := by
  rw [Direct.exec]
  cases hcode with
  | store hv hvalue =>
    rw [Machine.exec]
    exact .withMapped (eval_coded h (coded_assigned hc hn hv hvalue) hclear) h
      fun x => (assigns_variable hL h hn hv x).agrees
  | storeList hi hvalue =>
    rw [Machine.exec]
    exact .withMapped (evalItems_coded h hvalue hclear) h
      fun xs => (assigns_list hL h hn hi xs).agrees
  | write hi hvalue =>
    rw [Machine.exec]
    exact .withMapped (eval_coded h hvalue hclear) h
      fun x => (assigns_destination hD h hn hi x).agrees

end Assignments

section Tests

variable {ls : LoopSlots} {locals : Locals} {st : Store} {m : Memory}

private theorem scalar_coded (h : Holds w.declared L ls locals st m) {e : RasterScript.Expr}
    {c : Expr} (hc : Coded w.declared L ls e c)
    (hclear : Clear w (Direct.hidden w.declared (ls.map (·.1)) e)) :
    (do (← Direct.eval w locals st e).scalar) = Meaning.of (Machine.eval w.env m c) := by
  rw [eval_coded h hc hclear, Direct.Meaning.of_one_scalar]

private theorem test_coded (h : Holds w.declared L ls locals st m) {e : RasterScript.Expr}
    {c : Expr} (hc : Coded w.declared L ls e c)
    (hclear : Clear w (Direct.hidden w.declared (ls.map (·.1)) e)) (kind : LoopKind) :
    (do return Machine.goesOn kind (Number.truthy (← (← Direct.eval w locals st e).scalar))) =
      Meaning.of ((Machine.eval w.env m c).map fun v => Machine.goesOn kind (Number.truthy v)) := by
  rw [eval_coded h hc hclear]
  cases Machine.eval w.env m c <;> rfl

private theorem evalSource_list (h : Holds w.declared L ls locals st m) {e : RasterScript.Expr}
    {c : Items Expr} (hc : CodedItems w.declared L ls e c)
    (hclear : Clear w (Direct.hidden w.declared (ls.map (·.1)) e)) :
    Direct.evalSource w locals st (.list e) = .of (Machine.evalItems w.env m c) := by
  rw [Direct.evalSource, evalItems_coded h hc hclear]
  cases Machine.evalItems w.env m c <;> rfl

private theorem evalSource_range (h : Holds w.declared L ls locals st m)
    {low high : RasterScript.Expr} {c d : Expr} (hc : Coded w.declared L ls low c)
    (hd : Coded w.declared L ls high d)
    (hclear : Clear w (Direct.hidden w.declared (ls.map (·.1)) low ++
      Direct.hidden w.declared (ls.map (·.1)) high)) :
    Direct.evalSource w locals st (.range low high) =
      .of (do return Direct.between (← Machine.eval w.env m c) (← Machine.eval w.env m d)) := by
  rw [Direct.evalSource, eval_coded h hc hclear.left, eval_coded h hd hclear.right]
  cases Machine.eval w.env m c with
  | error f => rfl
  | ok x => cases Machine.eval w.env m d <;> rfl

/-- A loop whose body agrees inside the loop agrees outside of it. -/
theorem foreach_agrees {name : String} {i : Nat} {body : Float → Direct.Effect}
    {body' : Machine.Effect} (hi : Fresh L ls i)
    (hbody : ∀ x, EffectsAgree w.declared L ((name, i) :: ls) ((name, x) :: locals) (body x) body')
    (xs : List Float) :
    EffectsAgree w.declared L ls locals (Direct.forEach body xs)
      (Machine.forEach (.pixel i) body' xs) :=
  .forEach (fun x st _ h => (hbody x st _ (h.enter hi x)).exit) xs

end Tests

section Trees

mutual

/-- A statement and its code do the same. -/
theorem exec_agrees (hL : L.Separate) (hD : (w.declared.names .destination).Nodup) :
    ∀ {ls s cs}, CodedStmt w.declared L ls s cs → ∀ locals,
    Clear w (Direct.hiddenStmt w.declared (ls.map (·.1)) s) →
      EffectsAgree w.declared L ls locals (Direct.exec w locals s)
        (Machine.execAll w.limit w.env cs)
  | _, _, _, .assign hc hn hcode, _, hclear => fun st m h => by
    rw [Direct.hiddenStmt] at hclear
    rw [execAll_singleton]
    exact assign_agrees hL hD h hclear hc hn hcode
  | _, _, _, .cond htest hyes hno, locals, hclear => fun st m h => by
    rw [Direct.hiddenStmt] at hclear
    rw [execAll_singleton, Direct.exec, Machine.exec]
    refine .withValue (scalar_coded h htest hclear.left) h fun x => ?_
    split
    · exact exec_agrees hL hD hyes locals hclear.right.left st m h
    · exact execElse_agrees hL hD hno locals hclear.right.right st m h
  | _, _, _, .loop htest hbody, locals, hclear => fun st m h => by
    rw [Direct.hiddenStmt] at hclear
    rw [execAll_singleton, Direct.exec, Machine.exec]
    exact .repeatWhile (fun st m h => test_coded h htest hclear.left _)
      (exec_agrees hL hD hbody locals hclear.right) _ st m h
  | _, _, _, .foreachItem hi hitems hbody, locals, hclear => fun st m h => by
    rw [Direct.hiddenStmt] at hclear
    rw [execAll_singleton, Direct.exec, Machine.exec]
    refine .withValue (evalSource_list h hitems hclear.left) h fun xs => ?_
    exact foreach_agrees hi (fun x => exec_agrees hL hD hbody _ hclear.right) xs st m h
  | _, _, _, .foreachInt hi hlow hhigh hbody, locals, hclear => fun st m h => by
    rw [Direct.hiddenStmt] at hclear
    rw [execAll_singleton, Direct.exec, exec_foreachInt]
    refine .withValue (evalSource_range h hlow hhigh hclear.left) h fun xs => ?_
    exact foreach_agrees hi (fun x => exec_agrees hL hD hbody _ hclear.right) xs st m h
  | _, _, _, .block hbody, locals, hclear => by
    rw [Direct.hiddenStmt] at hclear
    rw [Direct.exec]
    exact execAll_agrees hL hD hbody locals hclear
  | _, _, _, .breakIf htest, _, hclear => fun st m h => by
    rw [Direct.hiddenStmt] at hclear
    rw [execAll_singleton, Direct.exec, Machine.exec]
    exact .withValue (scalar_coded h htest hclear) h fun x => .ended h _
  | _, _, _, .leave, _, _ => fun st m h => by
    rw [execAll_singleton, Direct.exec, Machine.exec]
    exact .ended h _

private theorem execElse_agrees (hL : L.Separate) (hD : (w.declared.names .destination).Nodup) :
    ∀ {ls s cs}, CodedElse w.declared L ls s cs → ∀ locals,
    Clear w (Direct.hiddenElse w.declared (ls.map (·.1)) s) →
      EffectsAgree w.declared L ls locals (Direct.execElse w locals s)
        (Machine.execAll w.limit w.env cs)
  | _, _, _, .none, _, _ => fun st m h => by
    rw [Direct.execElse, Machine.execAll]
    exact .ended h _
  | _, _, _, .some hs, locals, hclear => by
    rw [Direct.hiddenElse] at hclear
    rw [Direct.execElse]
    exact exec_agrees hL hD hs locals hclear

private theorem execAll_agrees (hL : L.Separate) (hD : (w.declared.names .destination).Nodup) :
    ∀ {ls ss cs}, CodedStmts w.declared L ls ss cs → ∀ locals,
    Clear w (Direct.hiddenStmts w.declared (ls.map (·.1)) ss) →
      EffectsAgree w.declared L ls locals (Direct.execAll w locals ss)
        (Machine.execAll w.limit w.env cs)
  | _, _, _, .nil, _, _ => fun st m h => by
    rw [Direct.execAll, Machine.execAll]
    exact .ended h _
  | _, _, _, .cons hs hss, locals, hclear => fun st m h => by
    rw [Direct.hiddenStmts] at hclear
    rw [Direct.execAll, execAll_append]
    exact Agrees.andThen (exec_agrees hL hD hs locals hclear.left st m h)
      (execAll_agrees hL hD hss locals hclear.right)

end

/-! ### Scripts -/

variable (hL : L.Separate) (hD : (w.declared.names .destination).Nodup)
include hL hD

theorem execBody_agrees {items : List Item} {cs : List Stmt}
    (hcode : CodedBody w.declared L items cs)
    (hclear : Clear w (Direct.hiddenItems w.declared items)) :
    EffectsAgree w.declared L [] [] (Direct.execBody w items)
      (Machine.execAll w.limit w.env cs) := by
  induction hcode with
  | nil =>
    intro st m h
    rw [Direct.execBody, Machine.execAll]
    exact .ended h _
  | stmt hs _ ih =>
    intro st m h
    rw [Direct.execBody, execAll_append]
    exact Agrees.andThen (exec_agrees hL hD hs [] hclear.left st m h) (ih hclear.right)
  | images _ ih => exact ih hclear
  | options _ ih => exact ih hclear
  | init _ ih => exact ih hclear.right

omit hD in
private theorem execInit_agrees {values : List NamedValue} {cs : List Stmt}
    (hcode : CodedValues w.declared L values cs)
    (hclear : Clear w (values.flatMap fun v => Direct.hidden w.declared [] v.value)) :
    EffectsAgree w.declared L [] [] (Direct.execInit w values)
      (Machine.execAll w.limit w.env cs) := by
  induction hcode with
  | nil =>
    intro st m h
    rw [Direct.execInit, Machine.execAll]
    exact .ended h _
  | cons _ hd hi hvalue _ ih =>
    intro st m h
    rw [Direct.execInit, execAll_cons, Machine.exec]
    refine Agrees.andThen (.withMapped (eval_coded h hvalue hclear.left) h fun x => ?_)
      (ih hclear.right)
    exact (assigns_variable hL h rfl (.image hd hi) x).agrees

omit hD in
theorem execInits_agrees {items : List Item} {cs : List Stmt}
    (hcode : CodedInit w.declared L items cs)
    (hclear : Clear w (Direct.hiddenItems w.declared items)) :
    EffectsAgree w.declared L [] [] (Direct.execInits w items)
      (Machine.execAll w.limit w.env cs) := by
  induction hcode with
  | nil =>
    intro st m h
    rw [Direct.execInits, Machine.execAll]
    exact .ended h _
  | init hvalues _ ih =>
    intro st m h
    rw [Direct.execInits, execAll_append]
    exact Agrees.andThen (execInit_agrees hL hvalues hclear.left st m h) (ih hclear.right)
  | images _ ih => exact ih hclear
  | options _ ih => exact ih hclear
  | stmt _ ih => exact ih hclear.right

end Trees

/-! ### Runs -/

private theorem map_getD_idxOf {names : List String} (hnodup : names.Nodup) {values : List Float}
    (hlength : values.length = names.length) :
    names.map (fun name => values.getD (names.idxOf name) 0) = values := by
  refine List.ext_getElem (by rw [List.length_map, hlength]) fun i hi hi' => ?_
  rw [List.getElem_map, hnodup.idxOf_getElem, List.getD_eq_getElem?_getD,
    List.getElem?_eq_getElem hi', Option.getD_some]

theorem CodeOf.holds_start {script : Script} {code : Code}
    (hcode : CodeOf w.declared L script code) {values : List Float}
    (hlength : values.length = code.imageSlots.length) :
    Holds w.declared L [] [] (.start code.imageSlots values) (.fresh code values) where
  image := by
    rw [hcode.imageSlots] at hlength ⊢
    exact (map_getD_idxOf hcode.separate.image hlength).symm
  lists := by simp [Memory.fresh, Store.start, hcode.listSlots, List.map_const']
  outputs := by simp [Memory.fresh, Store.start, hcode.destinations, List.map_const']
  count := by simp [Memory.fresh, hcode.pixelSlots]
  pixel := by
    intro n i hi
    have hlt := hcode.separate.bound hi
    simp [Memory.fresh, Store.start, hcode.pixelSlots, hlt]
  loops := .nil
  apart := by simp

/-- Effects that agree give the same result. -/
theorem CodeOf.run_eq {script : Script} {code : Code} (hcode : CodeOf w.declared L script code)
    {values : List Float} (hlength : values.length = code.imageSlots.length)
    {effect : Direct.Effect} {statements : List Stmt}
    (h : EffectsAgree w.declared L [] [] effect (Machine.execAll w.limit w.env statements)) :
    Direct.run w code.imageSlots values effect =
      some (Machine.run w.limit code w.env values statements) := by
  obtain ⟨st, hst, hm⟩ := h _ _ (hcode.holds_start hlength)
  rw [Direct.run, hst, Option.map_some, Machine.run]
  generalize Machine.execAll w.limit w.env statements (.fresh code values) = q at hm ⊢
  obtain ⟨m, ended⟩ := q
  have himage : code.imageSlots.map st.image = m.imageValues := by
    rw [hcode.imageSlots]
    exact hm.image.symm
  have houtputs : (w.declared.names .destination).map st.outputs = m.outputs := hm.outputs.symm
  cases ended <;> simp [Store.result, himage, houtputs]

end Statements

end RasterScript.Code
