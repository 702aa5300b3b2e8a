import RasterScript.Proofs.Machine.Frame

/-! Runs that finish. The rules below say what a finished run is, with no limit on the rounds of
conditional loops; a loop that goes on for ever has no finished run. Code without conditional loops
finishes from every memory. -/
namespace RasterScript

open Code (Slot Items)

/-! ### What code is made of -/

namespace Code

mutual

/-- Whether there is no conditional loop in a statement. -/
def Stmt.loopless : Stmt → Bool
  | .store _ _ | .storeList _ _ | .write _ _ | .breakIf _ | .leave => true
  | .cond _ yes no => stmtsLoopless yes && stmtsLoopless no
  | .loop _ _ _ => false
  | .foreachItem _ _ body | .foreachInt _ _ _ body => stmtsLoopless body

def stmtsLoopless : List Stmt → Bool
  | [] => true
  | s :: ss => s.loopless && stmtsLoopless ss

end

/-- The list literal that a list is given by, if it is. -/
def Items.literals {ε : Type} : Items ε → List (List ε)
  | .slot _ => []
  | .literal items => [items]

mutual

/-- The list literals that a statement stores or runs over. -/
def Stmt.literals : Stmt → List (List Expr)
  | .storeList _ value => value.literals
  | .cond _ yes no => stmtsLiterals yes ++ stmtsLiterals no
  | .loop _ _ body | .foreachInt _ _ _ body => stmtsLiterals body
  | .foreachItem _ items body => items.literals ++ stmtsLiterals body
  | .store _ _ | .write _ _ | .breakIf _ | .leave => []

def stmtsLiterals : List Stmt → List (List Expr)
  | [] => []
  | s :: ss => s.literals ++ stmtsLiterals ss

end

/-- Whether there is no conditional loop in the code. -/
def loopless (c : Code) : Bool := stmtsLoopless c.init && stmtsLoopless c.body

/-- The length of the longest list literal in the code. -/
def longestLiteral (c : Code) : Nat :=
  ((stmtsLiterals c.init ++ stmtsLiterals c.body).map List.length).max?.getD 0

theorem length_le_longestLiteral (c : Code) {ss : List Stmt} (hss : ss ∈ [c.init, c.body]) :
    ∀ l ∈ stmtsLiterals ss, l.length ≤ c.longestLiteral := by
  intro l hl
  refine List.le_max?_getD_of_mem (List.mem_map_of_mem (List.mem_append.mpr ?_))
  rcases List.mem_pair.mp hss with rfl | rfl
  · exact .inl hl
  · exact .inr hl

/-- Whether a statement has no others in it. -/
def Stmt.isSimple : Stmt → Bool
  | .store _ _ | .storeList _ _ | .write _ _ | .breakIf _ | .leave => true
  | _ => false

theorem Stmt.loopless_of_isSimple {s : Stmt} (h : s.isSimple) : s.loopless := by
  cases s with
  | cond | loop | foreachItem | foreachInt => cases h
  | _ => rfl

end Code

namespace Machine

open Number (truthy)

/-! ### Finished runs -/

/-- What can be told of a run: the memories that it reaches, and for each loop over values what it
was entered with and how many rounds were begun. -/
inductive Event where
  | reached (memory : Memory)
  | items (values : List Float) (rounds : Nat)
  | between (low high : Float) (rounds : Nat)

/-- How a loop ends when a round does not end in the next. -/
def afterBreak : Outcome → Outcome
  | .leave => .next
  | how => how

mutual

/-- `Finishes env s m es r`: from the memory `m` the statement `s` comes to the end `r`, and `es`
happens on the way. -/
inductive Finishes (env : Environment) :
    Code.Stmt → Memory → List Event → Memory × Outcome → Prop where
  | simple {s m r} : s.isSimple → exec 0 env s m = r → Finishes env s m [.reached r.1] r
  | cond {test yes no m v es r} : eval env m test = .ok v →
      FinishesAll env (if truthy v then yes else no) m es r →
      Finishes env (.cond test yes no) m es r
  | condFails {test yes no m f} : eval env m test = .error f →
      Finishes env (.cond test yes no) m [] (m, .stop (.failed f))
  | loopEnds {kind test body m v} : eval env m test = .ok v → goesOn kind (truthy v) = false →
      Finishes env (.loop kind test body) m [] (m, .next)
  | loopGoes {kind test body m v n es fs r} : eval env m test = .ok v →
      goesOn kind (truthy v) = true → FinishesAll env body m es (n, .next) →
      Finishes env (.loop kind test body) n fs r →
      Finishes env (.loop kind test body) m (es ++ fs) r
  | loopBreaks {kind test body m v n how es} : eval env m test = .ok v →
      goesOn kind (truthy v) = true → FinishesAll env body m es (n, how) → how ≠ .next →
      Finishes env (.loop kind test body) m es (n, afterBreak how)
  | loopFails {kind test body m f} : eval env m test = .error f →
      Finishes env (.loop kind test body) m [] (m, .stop (.failed f))
  | items {var items body m vs rounds es r} : evalItems env m items = .ok vs →
      Rounds env var body vs m rounds es r →
      Finishes env (.foreachItem var items body) m (es ++ [.items vs rounds]) r
  | itemsFail {var items body m f} : evalItems env m items = .error f →
      Finishes env (.foreachItem var items body) m [] (m, .stop (.failed f))
  | between {var low high body m l h rounds es r} : eval env m low = .ok l →
      eval env m high = .ok h → Rounds env var body (Direct.between l h) m rounds es r →
      Finishes env (.foreachInt var low high body) m (es ++ [.between l h rounds]) r
  | lowFails {var low high body m f} : eval env m low = .error f →
      Finishes env (.foreachInt var low high body) m [] (m, .stop (.failed f))
  | highFails {var low high body m l f} : eval env m low = .ok l → eval env m high = .error f →
      Finishes env (.foreachInt var low high body) m [] (m, .stop (.failed f))

/-- The rounds of a loop over values, with the number of those that are begun. -/
inductive Rounds (env : Environment) : Slot → List Code.Stmt → List Float → Memory → Nat →
    List Event → Memory × Outcome → Prop where
  | done {var body m} : Rounds env var body [] m 0 [] (m, .next)
  | goes {var body v vs m n rounds es fs r} : FinishesAll env body (m.store var v) es (n, .next) →
      Rounds env var body vs n rounds fs r →
      Rounds env var body (v :: vs) m (rounds + 1) (.reached (m.store var v) :: (es ++ fs)) r
  | breaks {var body v vs m n how es} : FinishesAll env body (m.store var v) es (n, how) →
      how ≠ .next →
      Rounds env var body (v :: vs) m 1 (.reached (m.store var v) :: es) (n, afterBreak how)

/-- Statements in turn. -/
inductive FinishesAll (env : Environment) :
    List Code.Stmt → Memory → List Event → Memory × Outcome → Prop where
  | nil {m} : FinishesAll env [] m [] (m, .next)
  | next {s ss m n es fs r} : Finishes env s m es (n, .next) → FinishesAll env ss n fs r →
      FinishesAll env (s :: ss) m (es ++ fs) r
  | ends {s ss m n how es} : Finishes env s m es (n, how) → how ≠ .next →
      FinishesAll env (s :: ss) m es (n, how)

end

/-! ### What the machine finishes -/

section Finished

variable {limit : Nat} {env : Environment}

mutual

/-- Without conditional loops the limit does not matter. -/
theorem exec_limit : ∀ (s : Code.Stmt), s.loopless → exec limit env s = exec 0 env s
  | .store _ _, _ => by rw [exec, exec]
  | .storeList _ _, _ => by rw [exec, exec]
  | .write _ _, _ => by rw [exec, exec]
  | .cond _ yes no, h => by
    obtain ⟨hyes, hno⟩ := (Bool.and_eq_true _ _).mp h
    rw [exec, exec, execAll_limit yes hyes, execAll_limit no hno]
  | .foreachItem _ _ body, h => by rw [exec, exec, execAll_limit body h]
  | .foreachInt _ _ _ body, h => by rw [exec, exec, execAll_limit body h]
  | .breakIf _, _ => by rw [exec, exec]
  | .leave, _ => by rw [exec, exec]

theorem execAll_limit : ∀ (ss : List Code.Stmt), Code.stmtsLoopless ss →
    execAll limit env ss = execAll 0 env ss
  | [], _ => by
    funext m
    rw [execAll, execAll]
  | s :: ss, h => by
    obtain ⟨hs, hss⟩ := (Bool.and_eq_true _ _).mp h
    funext m
    rw [Code.execAll_cons, Code.execAll_cons, exec_limit s hs, execAll_limit ss hss]

end

/-- An end that is not for want of rounds. -/
def Proper (r : Memory × Outcome) : Prop := r.2 ≠ .stop .exhausted

theorem proper_next (m : Memory) : Proper (m, .next) := by rintro ⟨⟩

theorem proper_leave (m : Memory) : Proper (m, .leave) := by rintro ⟨⟩

private theorem proper_failed (m : Memory) (f : Failure) :
    Proper (m, .stop (.failed f)) := by rintro ⟨⟩

theorem Proper.afterBreak {m : Memory} {how : Outcome} (h : Proper (m, how)) :
    Proper (m, Machine.afterBreak how) := by
  cases how with
  | leave => exact proper_next m
  | next | stop => exact h

/-- The machine finishes statements wherever it does not run out of rounds. -/
def Faithful (limit : Nat) (env : Environment) (ss : List Code.Stmt) : Prop :=
  ∀ m, Proper (execAll limit env ss m) →
    ∃ es, FinishesAll env ss m es (execAll limit env ss m)

theorem Faithful.forEach {body : List Code.Stmt} (hbody : Faithful limit env body) (var : Slot)
    (vs : List Float) (m : Memory) (h : Proper (forEach var (execAll limit env body) vs m)) :
    ∃ rounds es, Rounds env var body vs m rounds es
      (Machine.forEach var (execAll limit env body) vs m) := by
  induction vs generalizing m with
  | nil => exact ⟨0, [], .done⟩
  | cons v vs ih =>
    have hround := hbody (m.store var v)
    rw [Machine.forEach] at h ⊢
    generalize execAll limit env body (m.store var v) = q at hround h ⊢
    obtain ⟨n, how⟩ := q
    cases how with
    | next =>
      obtain ⟨es, hes⟩ := hround (proper_next n)
      obtain ⟨rounds, fs, hfs⟩ := ih n h
      exact ⟨rounds + 1, _, .goes hes hfs⟩
    | leave =>
      obtain ⟨es, hes⟩ := hround (proper_leave n)
      exact ⟨1, _, .breaks hes (by rintro ⟨⟩)⟩
    | stop halt =>
      obtain ⟨es, hes⟩ := hround h
      exact ⟨1, _, .breaks hes (by rintro ⟨⟩)⟩

theorem Faithful.repeatWhile {body : List Code.Stmt} (hbody : Faithful limit env body)
    (kind : LoopKind) (test : Code.Expr) (rounds : Nat) (m : Memory)
    (h : Proper (repeatWhile (fun m => (eval env m test).map fun v => goesOn kind (truthy v))
      (execAll limit env body) rounds m)) :
    ∃ es, Finishes env (.loop kind test body) m es
      (Machine.repeatWhile (fun m => (eval env m test).map fun v => goesOn kind (truthy v))
        (execAll limit env body) rounds m) := by
  induction rounds generalizing m with
  | zero => exact absurd rfl h
  | succ rounds ih =>
    have hround := hbody m
    rw [Machine.repeatWhile] at h ⊢
    cases htest : eval env m test with
    | error f => exact ⟨[], .loopFails htest⟩
    | ok v =>
      simp only [htest, Except.map] at h ⊢
      cases hgoes : goesOn kind (truthy v) with
      | false => exact ⟨[], .loopEnds htest hgoes⟩
      | true =>
        simp only [hgoes] at h ⊢
        generalize execAll limit env body m = q at hround h ⊢
        obtain ⟨n, how⟩ := q
        cases how with
        | next =>
          obtain ⟨es, hes⟩ := hround (proper_next n)
          obtain ⟨fs, hfs⟩ := ih n h
          exact ⟨_, .loopGoes htest hgoes hes hfs⟩
        | leave =>
          obtain ⟨es, hes⟩ := hround (proper_leave n)
          exact ⟨_, .loopBreaks htest hgoes hes (by rintro ⟨⟩)⟩
        | stop halt =>
          obtain ⟨es, hes⟩ := hround h
          exact ⟨_, .loopBreaks htest hgoes hes (by rintro ⟨⟩)⟩

mutual

private theorem exec_finishes : ∀ (s : Code.Stmt) (m : Memory), Proper (exec limit env s m) →
    ∃ es, Finishes env s m es (exec limit env s m)
  | .store _ _, m, _ => ⟨_, .simple rfl (congrFun (exec_limit _ rfl) m).symm⟩
  | .storeList _ _, m, _ => ⟨_, .simple rfl (congrFun (exec_limit _ rfl) m).symm⟩
  | .write _ _, m, _ => ⟨_, .simple rfl (congrFun (exec_limit _ rfl) m).symm⟩
  | .breakIf _, m, _ => ⟨_, .simple rfl (congrFun (exec_limit _ rfl) m).symm⟩
  | .leave, m, _ => ⟨_, .simple rfl (congrFun (exec_limit _ rfl) m).symm⟩
  | .cond test yes no, m, h => by
    rw [exec] at h ⊢
    cases htest : eval env m test with
    | error f =>
      simp only [htest, withValue]
      exact ⟨[], .condFails htest⟩
    | ok v =>
      simp only [htest, withValue] at h ⊢
      have hbranch : ∃ es, FinishesAll env (if truthy v then yes else no) m es
          (if truthy v then execAll limit env yes m else execAll limit env no m) := by
        split at h
        · next hv =>
          simp only [hv, if_true]
          exact execAll_finishes yes m h
        · next hv =>
          simp only [hv, Bool.false_eq_true, if_false]
          exact execAll_finishes no m h
      obtain ⟨es, hes⟩ := hbranch
      exact ⟨es, .cond htest hes⟩
  | .loop kind test body, m, h => by
    rw [exec] at h ⊢
    exact Faithful.repeatWhile (execAll_finishes body) kind test limit m h
  | .foreachItem var items body, m, h => by
    rw [exec] at h ⊢
    cases hitems : evalItems env m items with
    | error f =>
      simp only [hitems, withValue]
      exact ⟨[], .itemsFail hitems⟩
    | ok vs =>
      simp only [hitems, withValue] at h ⊢
      obtain ⟨rounds, es, hrounds⟩ := Faithful.forEach (execAll_finishes body) var vs m h
      exact ⟨_, .items hitems hrounds⟩
  | .foreachInt var low high body, m, h => by
    rw [exec] at h ⊢
    cases hlow : eval env m low with
    | error f =>
      simp only [hlow, withValue]
      exact ⟨[], .lowFails hlow⟩
    | ok l =>
      cases hhigh : eval env m high with
      | error f =>
        simp only [hlow, hhigh, withValue]
        exact ⟨[], .highFails hlow hhigh⟩
      | ok u =>
        simp only [hlow, hhigh, withValue, Code.forBetween_eq_forEach] at h ⊢
        obtain ⟨rounds, es, hrounds⟩ :=
          Faithful.forEach (execAll_finishes body) var (Direct.between l u) m h
        exact ⟨_, .between hlow hhigh hrounds⟩

theorem execAll_finishes : ∀ (ss : List Code.Stmt), Faithful limit env ss
  | [], m, _ => by
    rw [execAll]
    exact ⟨[], .nil⟩
  | s :: ss, m, h => by
    have hfirst := exec_finishes s m
    rw [Code.execAll_cons] at h ⊢
    generalize exec limit env s m = q at hfirst h ⊢
    obtain ⟨n, how⟩ := q
    cases how with
    | next =>
      obtain ⟨es, hes⟩ := hfirst (proper_next n)
      obtain ⟨fs, hfs⟩ := execAll_finishes ss n h
      exact ⟨_, .next hes hfs⟩
    | leave =>
      obtain ⟨es, hes⟩ := hfirst (proper_leave n)
      exact ⟨_, .ends hes (by rintro ⟨⟩)⟩
    | stop halt =>
      obtain ⟨es, hes⟩ := hfirst h
      exact ⟨_, .ends hes (by rintro ⟨⟩)⟩

end

end Finished

/-! ### Code without conditional loops -/

section Loopless

variable {limit : Nat} {env : Environment} {body : Effect}

private theorem withValue_proper {α : Type} {x : Except Failure α} {m : Memory}
    {k : α → Memory × Outcome} (hk : ∀ a, Proper (k a)) : Proper (withValue x m k) := by
  cases x with
  | error f => exact proper_failed m f
  | ok a => exact hk a

private theorem forEach_proper (hbody : ∀ m, Proper (body m)) (var : Slot) (vs : List Float)
    (m : Memory) : Proper (forEach var body vs m) := by
  induction vs generalizing m with
  | nil => exact proper_next m
  | cons v vs ih =>
    have hround := hbody (m.store var v)
    rw [forEach]
    generalize body (m.store var v) = q at hround ⊢
    obtain ⟨n, how⟩ := q
    cases how with
    | next => exact ih n
    | leave => exact proper_next n
    | stop halt => exact hround

mutual

/-- Without conditional loops nothing runs out of rounds. -/
theorem exec_proper : ∀ (s : Code.Stmt), s.loopless → ∀ m, Proper (exec limit env s m)
  | .store _ _, _, m => by
    rw [exec]
    exact withValue_proper fun _ => proper_next _
  | .storeList _ _, _, m => by
    rw [exec]
    exact withValue_proper fun _ => proper_next _
  | .write _ _, _, m => by
    rw [exec]
    exact withValue_proper fun _ => proper_next _
  | .cond _ yes no, h, m => by
    obtain ⟨hyes, hno⟩ := (Bool.and_eq_true _ _).mp h
    rw [exec]
    refine withValue_proper fun v => ?_
    split
    · exact execAll_proper yes hyes m
    · exact execAll_proper no hno m
  | .foreachItem var _ body, h, m => by
    rw [exec]
    exact withValue_proper fun vs => forEach_proper (execAll_proper body h) var vs m
  | .foreachInt var _ _ body, h, m => by
    rw [Code.exec_foreachInt]
    exact withValue_proper fun vs => forEach_proper (execAll_proper body h) var vs m
  | .breakIf _, _, m => by
    rw [exec]
    refine withValue_proper fun v => ?_
    split
    · exact proper_leave m
    · exact proper_next m
  | .leave, _, m => by
    rw [exec]
    exact proper_leave m

theorem execAll_proper : ∀ (ss : List Code.Stmt), Code.stmtsLoopless ss →
    ∀ m, Proper (execAll limit env ss m)
  | [], _, m => by
    rw [execAll]
    exact proper_next m
  | s :: ss, h, m => by
    obtain ⟨hs, hss⟩ := (Bool.and_eq_true _ _).mp h
    have hfirst := exec_proper s hs m
    rw [execAll]
    split
    · exact execAll_proper ss hss _
    · exact hfirst

end

/-- What follows a round that does not end in the next. -/
theorem afterBreak_eq {again : Effect} {n : Memory} {how : Outcome} (h : how ≠ .next) :
    (match (n, how) with
      | (m, .next) => again m
      | (m, .leave) => (m, .next)
      | stopped => stopped) = (n, afterBreak how) := by
  cases how with
  | next => exact absurd rfl h
  | leave => rfl
  | stop halt => rfl

end Loopless

/-! ### Enough rounds -/

section Rounds

variable {env : Environment}

/-- Run a statement, with a limit of its own for the rounds of a conditional loop. -/
def execWithin (limit rounds : Nat) (env : Environment) : Code.Stmt → Effect
  | .loop kind test body =>
    repeatWhile (fun m => (eval env m test).map fun v => goesOn kind (truthy v))
      (execAll limit env body) rounds
  | s => exec limit env s

private theorem execWithin_self (limit : Nat) (s : Code.Stmt) :
    execWithin limit limit env s = exec limit env s := by
  cases s with
  | loop kind test body => rw [execWithin, exec]
  | _ => rfl

/-- A first round that ends in the next. -/
theorem repeatWhile_goes {test : Memory → Except Failure Bool} {body : Effect} {m n : Memory}
    (htest : test m = .ok true) (hbody : body m = (n, .next)) (rounds : Nat) :
    repeatWhile test body (rounds + 1) m = repeatWhile test body rounds n := by
  rw [repeatWhile, htest, hbody]

private theorem repeatWhile_breaks {test : Memory → Except Failure Bool} {body : Effect}
    {m n : Memory} {how : Outcome} (htest : test m = .ok true) (hbody : body m = (n, how))
    (hhow : how ≠ .next) (rounds : Nat) :
    repeatWhile test body (rounds + 1) m = (n, afterBreak how) := by
  rw [repeatWhile, htest, hbody]
  exact afterBreak_eq hhow

mutual

/-- A finished run is what the machine does, if loops may take enough rounds. -/
theorem Finishes.within_rounds : ∀ {s m es r}, Finishes env s m es r →
    ∃ n, ∀ limit rounds, n ≤ limit → n ≤ rounds → execWithin limit rounds env s m = r
  | s, m, _, _, .simple hs hr => by
    refine ⟨0, fun limit rounds _ _ => ?_⟩
    cases s with
    | cond | loop | foreachItem | foreachInt => cases hs
    | _ => exact (congrFun (exec_limit _ rfl) m).trans hr
  | _, _, _, _, @Finishes.cond _ _ yes no _ v _ _ htest h => by
    obtain ⟨n, hn⟩ := h.within_rounds
    refine ⟨n, fun limit rounds hlimit _ => ?_⟩
    show exec limit env _ _ = _
    rw [exec]
    simp only [htest, withValue]
    rw [← hn limit hlimit]
    split <;> rfl
  | _, _, _, _, .condFails htest => by
    refine ⟨0, fun limit rounds _ _ => ?_⟩
    show exec limit env _ _ = _
    rw [exec]
    simp only [htest, withValue]
  | _, _, _, _, .loopEnds htest hgoes => by
    refine ⟨1, fun limit rounds _ hrounds => ?_⟩
    obtain ⟨k, rfl⟩ := Nat.exists_eq_add_of_le' hrounds
    rw [execWithin, repeatWhile, htest, Except.map, hgoes]
  | _, _, _, _, .loopGoes htest hgoes hbody hrest => by
    obtain ⟨n, hn⟩ := hbody.within_rounds
    obtain ⟨k, hk⟩ := hrest.within_rounds
    refine ⟨max n k + 1, fun limit rounds hlimit hrounds => ?_⟩
    obtain ⟨more, rfl⟩ := Nat.exists_eq_add_of_le' (Nat.le_of_add_left_le hrounds)
    rw [execWithin, repeatWhile_goes (by rw [htest, Except.map, hgoes]) (hn limit (by omega))]
    exact hk limit _ (by omega) (by omega)
  | _, _, _, _, .loopBreaks htest hgoes hbody hhow => by
    obtain ⟨n, hn⟩ := hbody.within_rounds
    refine ⟨n + 1, fun limit rounds hlimit hrounds => ?_⟩
    obtain ⟨more, rfl⟩ := Nat.exists_eq_add_of_le' (Nat.le_of_add_left_le hrounds)
    rw [execWithin]
    exact repeatWhile_breaks (by rw [htest, Except.map, hgoes]) (hn limit (by omega)) hhow more
  | _, _, _, _, .loopFails htest => by
    refine ⟨1, fun limit rounds _ hrounds => ?_⟩
    obtain ⟨k, rfl⟩ := Nat.exists_eq_add_of_le' hrounds
    rw [execWithin, repeatWhile, htest, Except.map]
  | _, _, _, _, .items hitems hrounds => by
    obtain ⟨n, hn⟩ := hrounds.within_rounds
    refine ⟨n, fun limit rounds hlimit _ => ?_⟩
    show exec limit env _ _ = _
    rw [exec]
    simp only [hitems, withValue]
    exact hn limit hlimit
  | _, _, _, _, .itemsFail hitems => by
    refine ⟨0, fun limit rounds _ _ => ?_⟩
    show exec limit env _ _ = _
    rw [exec]
    simp only [hitems, withValue]
  | _, _, _, _, .between hlow hhigh hrounds => by
    obtain ⟨n, hn⟩ := hrounds.within_rounds
    refine ⟨n, fun limit rounds hlimit _ => ?_⟩
    show exec limit env _ _ = _
    rw [exec]
    simp only [hlow, hhigh, withValue, Code.forBetween_eq_forEach]
    exact hn limit hlimit
  | _, _, _, _, .lowFails hlow => by
    refine ⟨0, fun limit rounds _ _ => ?_⟩
    show exec limit env _ _ = _
    rw [exec]
    simp only [hlow, withValue]
  | _, _, _, _, .highFails hlow hhigh => by
    refine ⟨0, fun limit rounds _ _ => ?_⟩
    show exec limit env _ _ = _
    rw [exec]
    simp only [hlow, hhigh, withValue]

theorem Rounds.within_rounds : ∀ {var body vs m rounds es r},
    Rounds env var body vs m rounds es r →
    ∃ n, ∀ limit, n ≤ limit → forEach var (execAll limit env body) vs m = r
  | _, _, _, _, _, _, _, .done => ⟨0, fun _ _ => rfl⟩
  | _, _, _, _, _, _, _, .goes hround hrest => by
    obtain ⟨n, hn⟩ := hround.within_rounds
    obtain ⟨k, hk⟩ := hrest.within_rounds
    refine ⟨max n k, fun limit hlimit => ?_⟩
    obtain ⟨hfirst, hlater⟩ := Nat.max_le.mp hlimit
    rw [forEach, hn limit hfirst]
    exact hk limit hlater
  | _, _, _, _, _, _, _, .breaks hround hhow => by
    obtain ⟨n, hn⟩ := hround.within_rounds
    refine ⟨n, fun limit hlimit => ?_⟩
    rw [forEach, hn limit hlimit]
    exact afterBreak_eq hhow

theorem FinishesAll.within_rounds : ∀ {ss m es r}, FinishesAll env ss m es r →
    ∃ n, ∀ limit, n ≤ limit → execAll limit env ss m = r
  | _, _, _, _, .nil => ⟨0, fun limit _ => by rw [execAll]⟩
  | _, _, _, _, .next hs hss => by
    obtain ⟨n, hn⟩ := hs.within_rounds
    obtain ⟨k, hk⟩ := hss.within_rounds
    refine ⟨max n k, fun limit hlimit => ?_⟩
    obtain ⟨hfirst, hlater⟩ := Nat.max_le.mp hlimit
    rw [Code.execAll_cons, ← execWithin_self, hn limit limit hfirst hfirst]
    exact hk limit hlater
  | _, _, _, _, @FinishesAll.ends _ _ _ _ _ how _ hs hhow => by
    obtain ⟨n, hn⟩ := hs.within_rounds
    refine ⟨n, fun limit hlimit => ?_⟩
    rw [Code.execAll_cons, ← execWithin_self, hn limit limit hlimit hlimit]
    cases how with
    | next => exact absurd rfl hhow
    | leave => rfl
    | stop halt => rfl

end

mutual

/-- A finished run does not want for rounds. -/
theorem Finishes.proper : ∀ {s m es r}, Finishes env s m es r → Proper r
  | s, m, _, _, .simple hs hr => hr ▸ exec_proper s (Code.Stmt.loopless_of_isSimple hs) m
  | _, _, _, _, .cond _ h => h.proper
  | _, m, _, _, .loopEnds _ _ => proper_next m
  | _, _, _, _, .loopGoes _ _ _ h => h.proper
  | _, _, _, _, .loopBreaks _ _ h _ => h.proper.afterBreak
  | _, _, _, _, .items _ h => h.proper
  | _, _, _, _, .between _ _ h => h.proper
  | _, m, _, _, .condFails _ => proper_failed m _
  | _, m, _, _, .loopFails _ => proper_failed m _
  | _, m, _, _, .itemsFail _ => proper_failed m _
  | _, m, _, _, .lowFails _ => proper_failed m _
  | _, m, _, _, .highFails _ _ => proper_failed m _

theorem Rounds.proper : ∀ {var body vs m rounds es r}, Rounds env var body vs m rounds es r →
    Proper r
  | _, _, _, m, _, _, _, .done => proper_next m
  | _, _, _, _, _, _, _, .goes _ h => h.proper
  | _, _, _, _, _, _, _, .breaks h _ => h.proper.afterBreak

theorem FinishesAll.proper : ∀ {ss m es r}, FinishesAll env ss m es r → Proper r
  | _, m, _, _, .nil => proper_next m
  | _, _, _, _, .next _ h => h.proper
  | _, _, _, _, .ends h _ => h.proper

end

/-- A finished run without conditional loops is what the machine does, whatever the limit. -/
theorem FinishesAll.execAll_eq {limit : Nat} {ss : List Code.Stmt} {m : Memory}
    {es : List Event} {r : Memory × Outcome} (h : FinishesAll env ss m es r)
    (hss : Code.stmtsLoopless ss) : execAll limit env ss m = r := by
  obtain ⟨n, hn⟩ := h.within_rounds
  rw [execAll_limit ss hss, ← @execAll_limit n env ss hss]
  exact hn n (Nat.le_refl n)

end Rounds

end Machine

/-! ### Rounds and lists are bounded -/

/-- All lists of a memory have at most the given length. -/
def Memory.ListsWithin (bound : Nat) (m : Memory) : Prop := ∀ l ∈ m.lists, l.length ≤ bound

namespace Memory.ListsWithin

variable {bound : Nat} {m : Memory}

theorem fresh (c : Code) (values : List Float) : (Memory.fresh c values).ListsWithin bound := by
  intro l hl
  rw [List.eq_of_mem_replicate hl]
  exact Nat.zero_le bound

theorem loadList (h : m.ListsWithin bound) (i : Nat) : (m.loadList i).length ≤ bound := by
  rw [Memory.loadList, List.getD_eq_getElem?_getD]
  cases hi : m.lists[i]? with
  | none => exact Nat.zero_le bound
  | some l => exact h l (List.mem_of_getElem? hi)

theorem store (h : m.ListsWithin bound) (slot : Slot) (v : Float) :
    (m.store slot v).ListsWithin bound := by
  cases slot <;> exact h

theorem storeList (h : m.ListsWithin bound) (i : Nat) {values : List Float}
    (hvalues : values.length ≤ bound) : (m.storeList i values).ListsWithin bound := by
  intro l hl
  rcases List.mem_or_eq_of_mem_set hl with hl | rfl
  · exact h l hl
  · exact hvalues

end Memory.ListsWithin

namespace Machine

open Number (truthy)

/-- How many integers lie between two bounds that are cut to 64 bits; none if a bound is no
number. -/
def rangeSize (low high : Float) : Nat :=
  match Number.truncate? low, Number.truncate? high with
  | some l, some h => (h - l + 1).toNat
  | _, _ => 0

private theorem truncate?_within {x : Float} {n : Int} (h : Number.truncate? x = some n) :
    -(Number.twoTo 63 : Int) ≤ n ∧ n < Number.twoTo 63 := by
  have hone : (1 : Int) ≤ Number.twoTo 63 := by decide
  unfold Number.truncate? at h
  split at h
  · cases h
  · next negative _ =>
    cases h
    cases negative <;> simp <;> omega
  · cases h
    unfold Number.saturate
    omega

private theorem rangeSize_le (low high : Float) : rangeSize low high ≤ Number.twoTo 64 := by
  have hdouble : Number.twoTo 64 = 2 * Number.twoTo 63 := by decide
  unfold rangeSize
  split
  · next l h hl hh =>
    obtain ⟨hl, -⟩ := truncate?_within hl
    obtain ⟨-, hh⟩ := truncate?_within hh
    omega
  · exact Nat.zero_le _

private theorem length_between (low high : Float) :
    (Direct.between low high).length = rangeSize low high := by
  unfold Direct.between rangeSize
  cases Number.truncate? low with
  | none => rfl
  | some l =>
    cases Number.truncate? high with
    | none => rfl
    | some h => simp

private theorem length_evalAll {env : Environment} {m : Memory} {es : List Code.Expr}
    {vs : List Float} (h : evalAll env m es = .ok vs) : vs.length = es.length := by
  induction es generalizing vs with
  | nil =>
    rw [evalAll] at h
    cases h
    rfl
  | cons e es ih =>
    rw [evalAll] at h
    cases he : eval env m e with
    | error f =>
      rw [he] at h
      cases h
    | ok v =>
      cases hes : evalAll env m es with
      | error f =>
        rw [he, hes] at h
        cases h
      | ok ws =>
        rw [he, hes] at h
        cases h
        rw [List.length_cons, List.length_cons, ih hes]

variable {env : Environment} {bound : Nat}

/-- What a list is given by bounds its length. -/
theorem length_evalItems {m : Memory} {items : Items Code.Expr} {vs : List Float}
    (h : evalItems env m items = .ok vs) (hitems : ∀ l ∈ items.literals, l.length ≤ bound)
    (hm : m.ListsWithin bound) : vs.length ≤ bound := by
  cases items with
  | slot i =>
    rw [evalItems] at h
    cases h
    exact hm.loadList i
  | literal es =>
    rw [evalItems] at h
    rw [length_evalAll h]
    exact hitems es List.mem_cons_self

/-- No loop begins more rounds than it has values, and no list is longer than the bound. -/
def Event.Within (bound : Nat) : Event → Prop
  | .reached m => m.ListsWithin bound
  | .items values rounds => rounds ≤ values.length ∧ values.length ≤ bound
  | .between low high rounds => rounds ≤ rangeSize low high ∧ rangeSize low high ≤ Number.twoTo 64

/-- What happens in a run, and the memory at its end. -/
structure RunWithin (bound : Nat) (es : List Event) (r : Memory × Outcome) : Prop where
  events : ∀ e ∈ es, e.Within bound
  memory : r.1.ListsWithin bound

private theorem exec_simple_within {s : Code.Stmt} {m : Memory} (hs : s.isSimple)
    (hliterals : ∀ l ∈ s.literals, l.length ≤ bound) (hm : m.ListsWithin bound) :
    (exec 0 env s m).1.ListsWithin bound := by
  cases s with
  | store slot value =>
    rw [exec]
    exact withValue_keeps hm fun v => hm.store slot v
  | storeList slot value =>
    rw [exec]
    cases hvalue : evalItems env m value with
    | error f =>
      simp only [hvalue, withValue]
      exact hm
    | ok vs =>
      simp only [hvalue, withValue]
      exact hm.storeList slot (length_evalItems hvalue hliterals hm)
  | write image value =>
    rw [exec]
    exact withValue_keeps hm fun _ => hm
  | breakIf test =>
    rw [exec]
    exact withValue_keeps hm fun _ => hm
  | leave =>
    rw [exec]
    exact hm
  | cond => cases hs
  | loop => cases hs
  | foreachItem => cases hs
  | foreachInt => cases hs

theorem RunWithin.append {es fs : List Event} {m : Memory × Outcome} {r : Memory × Outcome}
    (hes : RunWithin bound es m) (hfs : RunWithin bound fs r) : RunWithin bound (es ++ fs) r :=
  ⟨List.forall_mem_append.mpr ⟨hes.events, hfs.events⟩, hfs.memory⟩

theorem RunWithin.nil {r : Memory × Outcome} (hm : r.1.ListsWithin bound) :
    RunWithin bound [] r := ⟨List.forall_mem_nil _, hm⟩

theorem RunWithin.concat {es : List Event} {e : Event} {r : Memory × Outcome}
    (hes : RunWithin bound es r) (he : e.Within bound) : RunWithin bound (es ++ [e]) r :=
  ⟨List.forall_mem_append.mpr ⟨hes.events, List.forall_mem_singleton.mpr he⟩, hes.memory⟩

theorem RunWithin.cons {es : List Event} {e : Event} {r : Memory × Outcome}
    (he : e.Within bound) (hes : RunWithin bound es r) : RunWithin bound (e :: es) r :=
  ⟨List.forall_mem_cons.mpr ⟨he, hes.events⟩, hes.memory⟩

mutual

/-- A run in which no literal is longer than the bound stays within it. -/
theorem Finishes.within : ∀ {s m es r}, Finishes env s m es r →
    (∀ l ∈ s.literals, l.length ≤ bound) → m.ListsWithin bound → RunWithin bound es r
  | _, _, _, _, .simple hs hr, hliterals, hm => by
    have hend : (exec 0 env _ _).1.ListsWithin bound := exec_simple_within hs hliterals hm
    rw [hr] at hend
    exact .cons hend (.nil hend)
  | _, _, _, _, .cond _ h, hliterals, hm => by
    obtain ⟨hyes, hno⟩ := List.forall_mem_append.mp hliterals
    refine h.within ?_ hm
    split
    · exact hyes
    · exact hno
  | _, _, _, _, .condFails _, _, hm => .nil hm
  | _, _, _, _, .loopEnds _ _, _, hm => .nil hm
  | _, _, _, _, .loopGoes _ _ hround hrest, hliterals, hm =>
    have hbody := hround.within hliterals hm
    hbody.append (hrest.within hliterals hbody.memory)
  | _, _, _, _, .loopBreaks _ _ hround _, hliterals, hm =>
    have hbody := hround.within hliterals hm
    ⟨hbody.events, hbody.memory⟩
  | _, _, _, _, .loopFails _, _, hm => .nil hm
  | _, _, _, _, .items hitems hrounds, hliterals, hm => by
    obtain ⟨hlist, hbody⟩ := List.forall_mem_append.mp hliterals
    obtain ⟨hrun, hcount⟩ := hrounds.within hbody hm
    exact hrun.concat ⟨hcount, length_evalItems hitems hlist hm⟩
  | _, _, _, _, .itemsFail _, _, hm => .nil hm
  | _, _, _, _, .between _ _ hrounds, hliterals, hm => by
    obtain ⟨hrun, hcount⟩ := hrounds.within hliterals hm
    rw [length_between] at hcount
    exact hrun.concat ⟨hcount, rangeSize_le _ _⟩
  | _, _, _, _, .lowFails _, _, hm => .nil hm
  | _, _, _, _, .highFails _ _, _, hm => .nil hm

theorem Rounds.within : ∀ {var body vs m rounds es r}, Rounds env var body vs m rounds es r →
    (∀ l ∈ Code.stmtsLiterals body, l.length ≤ bound) → m.ListsWithin bound →
      RunWithin bound es r ∧ rounds ≤ vs.length
  | _, _, _, _, _, _, _, .done, _, hm => ⟨.nil hm, Nat.le_refl 0⟩
  | _, _, _, _, _, _, _, .goes hround hrest, hliterals, hm => by
    have hbody := hround.within hliterals (hm.store _ _)
    obtain ⟨hrun, hcount⟩ := hrest.within hliterals hbody.memory
    exact ⟨.cons (hm.store _ _) (hbody.append hrun), Nat.succ_le_succ hcount⟩
  | _, _, _, _, _, _, _, .breaks hround _, hliterals, hm => by
    have hbody := hround.within hliterals (hm.store _ _)
    exact ⟨.cons (hm.store _ _) ⟨hbody.events, hbody.memory⟩, Nat.le_add_left ..⟩

theorem FinishesAll.within : ∀ {ss m es r}, FinishesAll env ss m es r →
    (∀ l ∈ Code.stmtsLiterals ss, l.length ≤ bound) → m.ListsWithin bound → RunWithin bound es r
  | _, _, _, _, .nil, _, hm => .nil hm
  | _, _, _, _, .next hs hss, hliterals, hm => by
    obtain ⟨hfirst, hlater⟩ := List.forall_mem_append.mp hliterals
    have hfirst := hs.within hfirst hm
    exact hfirst.append (hss.within hlater hfirst.memory)
  | _, _, _, _, .ends hs _, hliterals, hm =>
    hs.within (List.forall_mem_append.mp hliterals).1 hm

end

end Machine

end RasterScript
