import RasterScript.Proofs.Machine.Frame

/-! What a run depends on besides its memory: samples, functions of the position, and rounds for its
conditional loops. A run stops early only where one of these is refused. -/
namespace RasterScript

open Code (Slot Place Point Items Argument)

/-- Something that a run depends on and may not get. Images go by number or by name. -/
inductive Demand (ι : Type) where
  /-- A sample of an image; whether its band is given. -/
  | sample (image : ι) (banded : Bool)
  | position (f : PositionFunction)
  /-- As many rounds as a conditional loop takes. -/
  | rounds
deriving DecidableEq, Repr

namespace Code

mutual

/-- What the value of an expression depends on. -/
def Expr.demands : Expr → List (Demand Nat)
  | .const _ => []
  | .load _ => []
  | .read image band point =>
    bandDemands band ++ (pointDemands point ++ [.sample image band.isSome])
  | .position f => [.position f]
  | .unary _ a => a.demands
  | .binary _ a b => a.demands ++ b.demands
  | .select t a b => t.demands ++ (a.demands ++ b.demands)
  | .call _ args => exprsDemands args
  | .statistic _ args => argumentsDemands args

def exprsDemands : List Expr → List (Demand Nat)
  | [] => []
  | e :: es => e.demands ++ exprsDemands es

def bandDemands : Option Expr → List (Demand Nat)
  | none => []
  | some e => e.demands

def pointDemands : Option (Point Expr) → List (Demand Nat)
  | none => []
  | some p => placesDemands p

def placesDemands : Point Expr → List (Demand Nat)
  | ⟨x, y⟩ => placeDemands x ++ placeDemands y

def placeDemands : Place Expr → List (Demand Nat)
  | ⟨_, value⟩ => value.demands

def itemsDemands : Items Expr → List (Demand Nat)
  | .slot _ => []
  | .literal items => exprsDemands items

def argumentDemands : Argument Expr → List (Demand Nat)
  | .one e => e.demands
  | .many items => itemsDemands items

def argumentsDemands : List (Argument Expr) → List (Demand Nat)
  | [] => []
  | a :: as => argumentDemands a ++ argumentsDemands as

end

mutual

/-- What a statement depends on. -/
def Stmt.demands : Stmt → List (Demand Nat)
  | .store _ value => value.demands
  | .storeList _ value => itemsDemands value
  | .write _ value => value.demands
  | .cond test yes no => test.demands ++ (stmtsDemands yes ++ stmtsDemands no)
  | .loop _ test body => .rounds :: (test.demands ++ stmtsDemands body)
  | .foreachItem _ items body => itemsDemands items ++ stmtsDemands body
  | .foreachInt _ low high body => (low.demands ++ high.demands) ++ stmtsDemands body
  | .breakIf test => test.demands
  | .leave => []

def stmtsDemands : List Stmt → List (Demand Nat)
  | [] => []
  | s :: ss => s.demands ++ stmtsDemands ss

end

theorem stmtsDemands_append (ss ts : List Stmt) :
    stmtsDemands (ss ++ ts) = stmtsDemands ss ++ stmtsDemands ts := by
  induction ss with
  | nil => rw [stmtsDemands, List.nil_append, List.nil_append]
  | cons s ss ih => rw [List.cons_append, stmtsDemands, stmtsDemands, ih, List.append_assoc]

theorem stmtsDemands_singleton (s : Stmt) : stmtsDemands [s] = s.demands := by
  rw [stmtsDemands, stmtsDemands, List.append_nil]

end Code

namespace Machine

open Number (truthy)

/-- How a run stops when something that it demands is refused. A read without a band is one of the
first band. -/
inductive Refuses (env : Environment) : Demand Nat → Halt → Prop where
  | sample {image banded band x y f} : (banded = false → band = 0) →
      env.sample image band x y = .error f → Refuses env (.sample image banded) (.failed f)
  | position {p f} : env.position p = .error f → Refuses env (.position p) (.failed f)
  | rounds : Refuses env .rounds .exhausted

/-- One of the demands is refused. -/
def Denied (env : Environment) (ds : List (Demand Nat)) (halt : Halt) : Prop :=
  ∃ d ∈ ds, Refuses env d halt

theorem Denied.mono {env : Environment} {ds es : List (Demand Nat)} {halt : Halt}
    (h : Denied env ds halt) (hsub : ds ⊆ es) : Denied env es halt := by
  obtain ⟨d, hd, hrefuses⟩ := h
  exact ⟨d, hsub hd, hrefuses⟩

/-! ### Expressions -/

/-- A value that is there unless one of the demands is refused. -/
def Explained {α : Type} (env : Environment) (ds : List (Demand Nat)) (x : Except Failure α) :
    Prop :=
  ∀ f, x = .error f → Denied env ds (.failed f)

section Explained

variable {α β : Type} {env : Environment} {ds es : List (Demand Nat)} {x : Except Failure α}

theorem Explained.ok (a : α) : Explained env ds (.ok a : Except Failure α) := by
  rintro f ⟨⟩

theorem Explained.mono (h : Explained env ds x) (hsub : ds ⊆ es) : Explained env es x :=
  fun f hf => (h f hf).mono hsub

theorem Explained.bind {k : α → Except Failure β} (hx : Explained env ds x)
    (hk : ∀ a, x = .ok a → Explained env es (k a)) : Explained env (ds ++ es) (x >>= k) := by
  intro f hf
  cases x with
  | error g =>
    cases hf
    exact (hx f rfl).mono (List.subset_append_left _ _)
  | ok a => exact (hk a rfl f hf).mono (List.subset_append_right _ _)

/-- The last step of a computation is in the open. -/
theorem Explained.map (g : α → β) (hx : Explained env ds x) :
    Explained env ds (x >>= fun a => pure (g a)) := by
  intro f hf
  cases x with
  | error g =>
    cases hf
    exact hx f rfl
  | ok a => cases hf

end Explained

section Expressions

variable (env : Environment) (m : Memory)

mutual

/-- The evaluation of an expression fails only where a demand is refused. -/
theorem eval_explained : ∀ e : Code.Expr, Explained env e.demands (eval env m e)
  | .const _ => by
    rw [eval]
    exact .ok _
  | .load _ => by
    rw [eval]
    exact .ok _
  | .read image band point => by
    rw [eval, Code.Expr.demands]
    refine .bind (evalBand_explained band) fun b hb => ?_
    refine .bind (evalPoint_explained point) fun p _ f hf => ?_
    refine ⟨_, List.mem_singleton_self _, .sample (fun hnone => ?_) hf⟩
    rw [Option.isSome_eq_false_iff, Option.isNone_iff_eq_none] at hnone
    rw [hnone, evalBand] at hb
    exact (Except.ok.inj hb).symm
  | .position p => by
    rw [eval]
    exact fun f hf => ⟨_, List.mem_singleton_self _, .position hf⟩
  | .unary _ a => by
    rw [eval]
    exact .map _ (eval_explained a)
  | .binary _ a b => by
    rw [eval]
    refine .bind (eval_explained a) fun va _ => ?_
    split
    · exact .ok _
    · exact .map _ (eval_explained b)
  | .select t a b => by
    rw [eval]
    refine .bind (eval_explained t) fun vt _ => ?_
    split
    · exact (eval_explained a).mono (List.subset_append_left _ _)
    · exact (eval_explained b).mono (List.subset_append_right _ _)
  | .call _ args => by
    rw [eval]
    exact .map _ (evalAll_explained args)
  | .statistic _ args => by
    rw [eval]
    exact .map _ (evalArguments_explained args)

private theorem evalAll_explained : ∀ es, Explained env (Code.exprsDemands es) (evalAll env m es)
  | [] => by
    rw [evalAll]
    exact .ok _
  | e :: es => by
    rw [evalAll]
    exact .bind (eval_explained e) fun _ _ => .map _ (evalAll_explained es)

private theorem evalBand_explained : ∀ b, Explained env (Code.bandDemands b) (evalBand env m b)
  | none => by
    rw [evalBand]
    exact .ok _
  | some e => by
    rw [evalBand]
    exact eval_explained e

private theorem evalPoint_explained : ∀ p, Explained env (Code.pointDemands p) (evalPoint env m p)
  | none => by
    rw [evalPoint]
    exact .ok _
  | some p => by
    rw [evalPoint]
    exact evalPlaces_explained p

private theorem evalPlaces_explained :
    ∀ p, Explained env (Code.placesDemands p) (evalPlaces env m p)
  | ⟨x, y⟩ => by
    rw [evalPlaces]
    exact .bind (evalPlace_explained x env.x) fun _ _ => .map _ (evalPlace_explained y env.y)

private theorem evalPlace_explained : ∀ p here,
    Explained env (Code.placeDemands p) (evalPlace env m here p)
  | ⟨_, value⟩, _ => by
    rw [evalPlace]
    exact .map _ (eval_explained value)

private theorem evalItems_explained : ∀ items,
    Explained env (Code.itemsDemands items) (evalItems env m items)
  | .slot _ => by
    rw [evalItems]
    exact .ok _
  | .literal items => by
    rw [evalItems]
    exact evalAll_explained items

private theorem evalArgument_explained : ∀ a,
    Explained env (Code.argumentDemands a) (evalArgument env m a)
  | .one e => by
    rw [evalArgument]
    exact .map _ (eval_explained e)
  | .many items => by
    rw [evalArgument]
    exact evalItems_explained items

private theorem evalArguments_explained : ∀ as,
    Explained env (Code.argumentsDemands as) (evalArguments env m as)
  | [] => by
    rw [evalArguments]
    exact .ok _
  | a :: as => by
    rw [evalArguments]
    exact .bind (evalArgument_explained a) fun _ _ => .map _ (evalArguments_explained as)

end

end Expressions

/-! ### Statements -/

/-- An end that stops the run only if one of the demands is refused. -/
def StopsWith (env : Environment) (ds : List (Demand Nat)) (q : Memory × Outcome) : Prop :=
  ∀ halt, q.2 = .stop halt → Denied env ds halt

section StopsWith

variable {env : Environment} {ds es : List (Demand Nat)} {q : Memory × Outcome} {body : Effect}

theorem StopsWith.mono (h : StopsWith env ds q) (hsub : ds ⊆ es) : StopsWith env es q :=
  fun halt hq => (h halt hq).mono hsub

theorem StopsWith.next (m : Memory) : StopsWith env ds (m, .next) := by
  rintro halt ⟨⟩

theorem StopsWith.leave (m : Memory) : StopsWith env ds (m, .leave) := by
  rintro halt ⟨⟩

theorem Explained.stops {α : Type} {x : Except Failure α} {m : Memory} {k : α → Memory × Outcome}
    (hx : Explained env ds x) (hk : ∀ a, StopsWith env es (k a)) :
    StopsWith env (ds ++ es) (withValue x m k) := by
  cases x with
  | error f =>
    rintro halt ⟨⟩
    exact (hx f rfl).mono (List.subset_append_left _ _)
  | ok a => exact (hk a).mono (List.subset_append_right _ _)

/-- With nothing left to demand, a value is all that is needed. -/
theorem Explained.ends {α : Type} {x : Except Failure α} {m : Memory} {k : α → Memory × Outcome}
    (hx : Explained env ds x) (hk : ∀ a, StopsWith env [] (k a)) :
    StopsWith env ds (withValue x m k) := by
  have h := hx.stops (m := m) hk
  rwa [List.append_nil] at h

theorem StopsWith.round {again : Effect} (hagain : ∀ m, StopsWith env ds (again m)) :
    StopsWith env ds q → StopsWith env ds
      (match q with
      | (m, .next) => again m
      | (m, .leave) => (m, .next)
      | stopped => stopped) := by
  intro hq
  obtain ⟨m, how⟩ := q
  cases how with
  | next => exact hagain m
  | leave => exact .next m
  | stop halt => exact hq

private theorem repeatWhile_stops {test : Memory → Except Failure Bool}
    (htest : ∀ m, Explained env ds (test m)) (hbody : ∀ m, StopsWith env ds (body m))
    (hrounds : .rounds ∈ ds) (rounds : Nat) (m : Memory) :
    StopsWith env ds (repeatWhile test body rounds m) := by
  induction rounds generalizing m with
  | zero =>
    rintro halt ⟨⟩
    exact ⟨.rounds, hrounds, .rounds⟩
  | succ rounds ih =>
    have hm := htest m
    rw [repeatWhile]
    split
    · next f hf =>
      rintro halt ⟨⟩
      exact hm f hf
    · exact .next m
    · exact .round ih (hbody m)

private theorem forEach_stops (hbody : ∀ m, StopsWith env ds (body m)) (var : Slot)
    (vs : List Float) (m : Memory) : StopsWith env ds (forEach var body vs m) := by
  induction vs generalizing m with
  | nil => exact .next m
  | cons v vs ih =>
    rw [forEach]
    exact .round ih (hbody _)

end StopsWith

section Statements

variable (limit : Nat) (env : Environment)

mutual

/-- A statement stops the run only where a demand is refused. -/
theorem exec_stops : ∀ (s : Code.Stmt) (m : Memory),
    StopsWith env s.demands (exec limit env s m)
  | .store _ value, m => by
    rw [exec]
    exact (eval_explained env m value).ends fun _ => .next _
  | .storeList _ value, m => by
    rw [exec]
    exact (evalItems_explained env m value).ends fun _ => .next _
  | .write _ value, m => by
    rw [exec]
    exact (eval_explained env m value).ends fun _ => .next _
  | .cond test yes no, m => by
    rw [exec]
    refine (eval_explained env m test).stops fun v => ?_
    split
    · exact (execAll_stops yes m).mono (List.subset_append_left _ _)
    · exact (execAll_stops no m).mono (List.subset_append_right _ _)
  | .loop kind test body, m => by
    rw [exec]
    refine repeatWhile_stops (fun m => ?_) (fun m => ?_) List.mem_cons_self limit m
    · have htest := (eval_explained env m test).map fun v => goesOn kind (truthy v)
      exact htest.mono (List.subset_cons_of_subset _ (List.subset_append_left _ _))
    · exact (execAll_stops body m).mono
        (List.subset_cons_of_subset _ (List.subset_append_right _ _))
  | .foreachItem _ items body, m => by
    rw [exec]
    exact (evalItems_explained env m items).stops fun vs =>
      forEach_stops (execAll_stops body) _ vs m
  | .foreachInt _ low high body, m => by
    rw [Code.exec_foreachInt]
    refine Explained.stops ?_ fun vs => forEach_stops (execAll_stops body) _ vs m
    exact .bind (eval_explained env m low) fun _ _ => .map _ (eval_explained env m high)
  | .breakIf test, m => by
    rw [exec]
    refine (eval_explained env m test).ends fun v => ?_
    split
    · exact .leave m
    · exact .next m
  | .leave, m => by
    rw [exec]
    exact .leave m

private theorem execAll_stops : ∀ (ss : List Code.Stmt) (m : Memory),
    StopsWith env (Code.stmtsDemands ss) (execAll limit env ss m)
  | [], m => by
    rw [execAll]
    exact .next m
  | s :: ss, m => by
    have hfirst := exec_stops s m
    rw [execAll, Code.stmtsDemands]
    split
    · exact (execAll_stops ss _).mono (List.subset_append_right _ _)
    · exact hfirst.mono (List.subset_append_left _ _)

end

end Statements

end Machine

end RasterScript
