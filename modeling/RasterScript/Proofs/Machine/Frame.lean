import RasterScript.Proofs.Code.Simulation

/-! What a run leaves alone. A statement changes the slots that it stores to and those in the headers
of its loops over values; what does not depend on them, on lists or on outputs stays as it was. -/
namespace RasterScript

open Code (Slot)

namespace Code

mutual

/-- The slots that a statement stores to. -/
def Stmt.stores : Stmt → List Slot
  | .store slot _ => [slot]
  | .storeList _ _ => []
  | .write _ _ => []
  | .cond _ yes no => stmtsStores yes ++ stmtsStores no
  | .loop _ _ body => stmtsStores body
  | .foreachItem _ _ body => stmtsStores body
  | .foreachInt _ _ _ body => stmtsStores body
  | .breakIf _ => []
  | .leave => []

def stmtsStores : List Stmt → List Slot
  | [] => []
  | s :: ss => s.stores ++ stmtsStores ss

end

mutual

/-- The slots in the headers of loops over values. -/
def Stmt.headers : Stmt → List Slot
  | .store _ _ => []
  | .storeList _ _ => []
  | .write _ _ => []
  | .cond _ yes no => stmtsHeaders yes ++ stmtsHeaders no
  | .loop _ _ body => stmtsHeaders body
  | .foreachItem var _ body => var :: stmtsHeaders body
  | .foreachInt var _ _ body => var :: stmtsHeaders body
  | .breakIf _ => []
  | .leave => []

def stmtsHeaders : List Stmt → List Slot
  | [] => []
  | s :: ss => s.headers ++ stmtsHeaders ss

end

theorem stmtsStores_append (ss ts : List Stmt) :
    stmtsStores (ss ++ ts) = stmtsStores ss ++ stmtsStores ts := by
  induction ss with
  | nil => rw [stmtsStores, List.nil_append, List.nil_append]
  | cons s ss ih => rw [List.cons_append, stmtsStores, stmtsStores, ih, List.append_assoc]

theorem stmtsHeaders_append (ss ts : List Stmt) :
    stmtsHeaders (ss ++ ts) = stmtsHeaders ss ++ stmtsHeaders ts := by
  induction ss with
  | nil => rw [stmtsHeaders, List.nil_append, List.nil_append]
  | cons s ss ih => rw [List.cons_append, stmtsHeaders, stmtsHeaders, ih, List.append_assoc]

theorem stmtsStores_singleton (s : Stmt) : stmtsStores [s] = s.stores := by
  rw [stmtsStores, stmtsStores, List.append_nil]

theorem stmtsHeaders_singleton (s : Stmt) : stmtsHeaders [s] = s.headers := by
  rw [stmtsHeaders, stmtsHeaders, List.append_nil]

end Code

/-- A property of memories that holds whatever is put into the given slots, into lists and into
outputs. -/
structure Memory.Unaffected (slots : Slot → Prop) (I : Memory → Prop) : Prop where
  store : ∀ {slot}, slots slot → ∀ {m} v, I m → I (m.store slot v)
  storeList : ∀ {m} i vs, I m → I (m.storeList i vs)
  write : ∀ {m} i v, I m → I (m.write i v)

namespace Machine

open Memory (Unaffected)

section Rounds

variable {I : Memory → Prop} {m : Memory} {body : Effect}

theorem withValue_keeps {α : Type} {x : Except Failure α} {k : α → Memory × Outcome} (hm : I m)
    (hk : ∀ a, I (k a).1) : I (withValue x m k).1 := by
  cases x with
  | error f => exact hm
  | ok a => exact hk a

private theorem round_keeps {again : Effect} (hagain : ∀ m, I m → I (again m).1)
    {q : Memory × Outcome} (hq : I q.1) :
    I (match q with
      | (m, .next) => again m
      | (m, .leave) => (m, .next)
      | stopped => stopped).1 := by
  obtain ⟨m, how⟩ := q
  cases how with
  | next => exact hagain m hq
  | leave => exact hq
  | stop halt => exact hq

private theorem repeatWhile_keeps (hbody : ∀ m, I m → I (body m).1)
    (test : Memory → Except Failure Bool) (rounds : Nat) (m : Memory) (hm : I m) :
    I (repeatWhile test body rounds m).1 := by
  induction rounds generalizing m with
  | zero => exact hm
  | succ rounds ih =>
    rw [repeatWhile]
    split
    · exact hm
    · exact hm
    · exact round_keeps ih (hbody m hm)

private theorem forEach_keeps (hbody : ∀ m, I m → I (body m).1) {var : Slot}
    (hvar : ∀ m v, I m → I (m.store var v)) (vs : List Float) (m : Memory) (hm : I m) :
    I (forEach var body vs m).1 := by
  induction vs generalizing m with
  | nil => exact hm
  | cons v vs ih =>
    rw [forEach]
    exact round_keeps ih (hbody _ (hvar m v hm))

end Rounds

section Statements

variable {slots : Slot → Prop} {I : Memory → Prop} {limit : Nat} {env : Environment}

mutual

/-- A statement keeps what does not depend on the slots that it changes. -/
theorem exec_keeps (hI : Unaffected slots I) : ∀ (s : Code.Stmt), (∀ slot ∈ s.stores, slots slot) →
    (∀ slot ∈ s.headers, slots slot) → ∀ m, I m → I (exec limit env s m).1
  | .store slot _, hstores, _, m, hm => by
    rw [exec]
    exact withValue_keeps hm fun v => hI.store (hstores slot List.mem_cons_self) v hm
  | .storeList i _, _, _, m, hm => by
    rw [exec]
    exact withValue_keeps hm fun vs => hI.storeList i vs hm
  | .write i _, _, _, m, hm => by
    rw [exec]
    exact withValue_keeps hm fun v => hI.write i v hm
  | .cond _ yes no, hstores, hheaders, m, hm => by
    obtain ⟨hyes, hno⟩ := List.forall_mem_append.mp hstores
    obtain ⟨hyes', hno'⟩ := List.forall_mem_append.mp hheaders
    rw [exec]
    refine withValue_keeps hm fun v => ?_
    split
    · exact execAll_keeps hI yes hyes hyes' m hm
    · exact execAll_keeps hI no hno hno' m hm
  | .loop _ _ body, hstores, hheaders, m, hm => by
    rw [exec]
    exact repeatWhile_keeps (execAll_keeps hI body hstores hheaders) _ _ m hm
  | .foreachItem _ _ body, hstores, hheaders, m, hm => by
    obtain ⟨hvar, hbody⟩ := List.forall_mem_cons.mp hheaders
    rw [exec]
    refine withValue_keeps hm fun vs => ?_
    exact forEach_keeps (execAll_keeps hI body hstores hbody) (fun _ v => hI.store hvar v) vs m hm
  | .foreachInt _ _ _ body, hstores, hheaders, m, hm => by
    obtain ⟨hvar, hbody⟩ := List.forall_mem_cons.mp hheaders
    rw [Code.exec_foreachInt]
    refine withValue_keeps hm fun vs => ?_
    exact forEach_keeps (execAll_keeps hI body hstores hbody) (fun _ v => hI.store hvar v) vs m hm
  | .breakIf _, _, _, m, hm => by
    rw [exec]
    exact withValue_keeps hm fun _ => hm
  | .leave, _, _, m, hm => by
    rw [exec]
    exact hm

theorem execAll_keeps (hI : Unaffected slots I) :
    ∀ (ss : List Code.Stmt), (∀ slot ∈ Code.stmtsStores ss, slots slot) →
      (∀ slot ∈ Code.stmtsHeaders ss, slots slot) → ∀ m, I m → I (execAll limit env ss m).1
  | [], _, _, m, hm => by
    rw [execAll]
    exact hm
  | s :: ss, hstores, hheaders, m, hm => by
    obtain ⟨hs, hss⟩ := List.forall_mem_append.mp hstores
    obtain ⟨hs', hss'⟩ := List.forall_mem_append.mp hheaders
    have hfirst := exec_keeps hI s hs hs' m hm
    rw [execAll]
    split
    · next heq =>
      rw [heq] at hfirst
      exact execAll_keeps hI ss hss hss' _ hfirst
    · exact hfirst

end

end Statements

end Machine

end RasterScript
