import RasterScript.Proofs.Code.References
import RasterScript.Proofs.Machine.Frame

/-! Loops over values, round by round. Where the slot in the header of such a loop is the loop's own,
it holds the value of the round whenever the body evaluates an expression. -/
namespace RasterScript

open Code (Slot Reference)

/-! ### Slots that belong to their loops -/

namespace Code

/-- References from inside the bodies of loops with the given slots. -/
def reading (around : List Slot) (rs : List Reference) : List (List Slot × Reference) :=
  rs.map fun r => (around, r)

mutual

/-- What the expressions of a statement refer to, each with the slots of the loops over values in
whose bodies it stands, the innermost first. -/
def Stmt.reads (around : List Slot) : Stmt → List (List Slot × Reference)
  | .store _ value => reading around value.references
  | .storeList _ value => reading around (itemsReferences value)
  | .write _ value => reading around value.references
  | .cond test yes no =>
    reading around test.references ++ (stmtsReads around yes ++ stmtsReads around no)
  | .loop _ test body => reading around test.references ++ stmtsReads around body
  | .foreachItem var items body =>
    reading around (itemsReferences items) ++ stmtsReads (var :: around) body
  | .foreachInt var low high body =>
    reading around (low.references ++ high.references) ++ stmtsReads (var :: around) body
  | .breakIf test => reading around test.references
  | .leave => []

def stmtsReads (around : List Slot) : List Stmt → List (List Slot × Reference)
  | [] => []
  | s :: ss => s.reads around ++ stmtsReads around ss

end

/-- The slot in the header of a loop over values is in no other header, nothing is stored to it, and
it is loaded only in the body of that loop. -/
structure LoopsOwn (ss : List Stmt) : Prop where
  headers : (stmtsHeaders ss).Nodup
  stores : ∀ slot ∈ stmtsHeaders ss, slot ∉ stmtsStores ss
  loads : ∀ slot ∈ stmtsHeaders ss, ∀ around, (around, .slot slot) ∈ stmtsReads [] ss →
    slot ∈ around

theorem mem_reading {around : List Slot} {rs : List Reference} {p : List Slot × Reference} :
    p ∈ reading around rs ↔ p.1 = around ∧ p.2 ∈ rs := by
  obtain ⟨outer, r⟩ := p
  simp only [reading, List.mem_map, Prod.mk.injEq]
  exact ⟨fun ⟨s, hs, ha, hr⟩ => ⟨ha.symm, hr ▸ hs⟩, fun ⟨ha, hr⟩ => ⟨r, hr, ha.symm, rfl⟩⟩

theorem stmtsReads_append (around : List Slot) (ss ts : List Stmt) :
    stmtsReads around (ss ++ ts) = stmtsReads around ss ++ stmtsReads around ts := by
  induction ss with
  | nil => rw [stmtsReads, List.nil_append, List.nil_append]
  | cons s ss ih => rw [List.cons_append, stmtsReads, stmtsReads, ih, List.append_assoc]

theorem stmtsReads_singleton (around : List Slot) (s : Stmt) :
    stmtsReads around [s] = s.reads around := by
  rw [stmtsReads, stmtsReads, List.append_nil]

end Code

/-! ### Moments of a run -/

namespace Machine

open Number (truthy)

/-- A round of a loop over values: the slot of the loop, the values that it was entered with, and
the number of the round. -/
structure Round where
  slot : Slot
  values : List Float
  index : Nat

/-- A moment of a run at which something is evaluated: the rounds that it belongs to, the innermost
first, what the evaluated expressions refer to, and the memory. -/
structure Moment where
  rounds : List Round
  refers : List Reference
  memory : Memory

/-- The moments after a step, if the next one follows. -/
def following (rest : Memory → List Moment) : Memory × Outcome → List Moment
  | (m, .next) => rest m
  | _ => []

/-- The moments of a conditional loop. -/
def repeatMoments (test : Memory → Except Failure Bool) (tested : Memory → Moment) (body : Effect)
    (inner : Memory → List Moment) : Nat → Memory → List Moment
  | 0, _ => []
  | rounds + 1, m =>
    tested m :: match test m with
      | .ok true => inner m ++ following (repeatMoments test tested body inner rounds) (body m)
      | _ => []

/-- The moments of a loop over values from a round on. -/
def eachMoments (var : Slot) (values : List Float) (body : Effect)
    (inner : Round → Memory → List Moment) : Nat → List Float → Memory → List Moment
  | _, [], _ => []
  | index, v :: vs, m =>
    inner ⟨var, values, index⟩ (m.store var v) ++
      following (eachMoments var values body inner (index + 1) vs) (body (m.store var v))

/-- The moments that depend on a value, if there is one. -/
def afterValue {α : Type} (value : Except Failure α) (k : α → List Moment) : List Moment :=
  match value with
  | .ok a => k a
  | .error _ => []

mutual

/-- The moments of a statement, inside the given rounds. -/
def moments (limit : Nat) (env : Environment) : Code.Stmt → List Round → Memory → List Moment
  | .store _ value, rounds, m => [⟨rounds, value.references, m⟩]
  | .storeList _ value, rounds, m => [⟨rounds, Code.itemsReferences value, m⟩]
  | .write _ value, rounds, m => [⟨rounds, value.references, m⟩]
  | .cond test yes no, rounds, m =>
    ⟨rounds, test.references, m⟩ :: afterValue (eval env m test) fun v =>
      if truthy v then allMoments limit env yes rounds m else allMoments limit env no rounds m
  | .loop kind test body, rounds, m =>
    repeatMoments (fun m => (eval env m test).map fun v => goesOn kind (truthy v))
      (fun m => ⟨rounds, test.references, m⟩) (execAll limit env body)
      (allMoments limit env body rounds) limit m
  | .foreachItem var items body, rounds, m =>
    ⟨rounds, Code.itemsReferences items, m⟩ :: afterValue (evalItems env m items) fun vs =>
      eachMoments var vs (execAll limit env body)
        (fun r => allMoments limit env body (r :: rounds)) 0 vs m
  | .foreachInt var low high body, rounds, m =>
    ⟨rounds, low.references ++ high.references, m⟩ ::
      afterValue (do return Direct.between (← eval env m low) (← eval env m high)) fun vs =>
        eachMoments var vs (execAll limit env body)
          (fun r => allMoments limit env body (r :: rounds)) 0 vs m
  | .breakIf test, rounds, m => [⟨rounds, test.references, m⟩]
  | .leave, _, _ => []

def allMoments (limit : Nat) (env : Environment) :
    List Code.Stmt → List Round → Memory → List Moment
  | [], _, _ => []
  | s :: ss, rounds, m =>
    moments limit env s rounds m ++
      following (allMoments limit env ss rounds) (exec limit env s m)

end

/-- A loop over the given values, entered with the memory `m`, begins its rounds with the memories
`starts` and comes to the end `r`. -/
inductive Begins (var : Slot) (body : Effect) :
    List Float → Memory → List Memory → Memory × Outcome → Prop where
  | done {m} : Begins var body [] m [] (m, .next)
  | goes {v vs m n starts r} : body (m.store var v) = (n, .next) →
      Begins var body vs n starts r → Begins var body (v :: vs) m (m.store var v :: starts) r
  | leaves {v vs m n} : body (m.store var v) = (n, .leave) →
      Begins var body (v :: vs) m [m.store var v] (n, .next)
  | stops {v vs m n halt} : body (m.store var v) = (n, .stop halt) →
      Begins var body (v :: vs) m [m.store var v] (n, .stop halt)

private theorem forEach_begins (var : Slot) (body : Effect) (vs : List Float) (m : Memory) :
    ∃ starts, Begins var body vs m starts (forEach var body vs m) := by
  induction vs generalizing m with
  | nil => exact ⟨[], .done⟩
  | cons v vs ih =>
    rw [forEach]
    cases hround : body (m.store var v) with
    | mk n how =>
      cases how with
      | next =>
        obtain ⟨starts, hstarts⟩ := ih n
        exact ⟨_, .goes hround hstarts⟩
      | leave => exact ⟨_, .leaves hround⟩
      | stop halt => exact ⟨_, .stops hround⟩

/-- The moments of a loop are those of the rounds that it begins. -/
theorem Begins.eachMoments_eq {var : Slot} {body : Effect} {vs : List Float} {m : Memory}
    {starts : List Memory} {r : Memory × Outcome} (h : Begins var body vs m starts r)
    (values : List Float) (inner : Round → Memory → List Moment) (index : Nat) :
    eachMoments var values body inner index vs m =
      (starts.zipIdx index).flatMap fun start => inner ⟨var, values, start.2⟩ start.1 := by
  induction h generalizing index with
  | done => rfl
  | goes hround _ ih =>
    rw [eachMoments, hround, following, ih, List.zipIdx_cons, List.flatMap_cons]
  | leaves hround | stops hround =>
    rw [eachMoments, hround, List.zipIdx_cons, List.flatMap_cons]
    rfl

/-- So the moments of a list are those of the rounds that the machine begins. -/
theorem eachMoments_of_forEach (var : Slot) (body : Effect)
    (inner : Round → Memory → List Moment) (vs : List Float) (m : Memory) :
    ∃ starts, Begins var body vs m starts (forEach var body vs m) ∧
      eachMoments var vs body inner 0 vs m =
        starts.zipIdx.flatMap fun start => inner ⟨var, vs, start.2⟩ start.1 := by
  obtain ⟨starts, hstarts⟩ := forEach_begins var body vs m
  exact ⟨starts, hstarts, hstarts.eachMoments_eq vs inner 0⟩

/-- And so are those of a range. -/
theorem eachMoments_of_forBetween (var : Slot) (body : Effect)
    (inner : Round → Memory → List Moment) (low high : Float) (m : Memory) :
    ∃ starts, Begins var body (Direct.between low high) m starts (forBetween var body low high m) ∧
      eachMoments var (Direct.between low high) body inner 0 (Direct.between low high) m =
        starts.zipIdx.flatMap fun start =>
          inner ⟨var, Direct.between low high, start.2⟩ start.1 := by
  rw [Code.forBetween_eq_forEach]
  exact eachMoments_of_forEach var body inner (Direct.between low high) m

end Machine

/-! ### What rounds hold -/

namespace Memory

theorem load_store_of_ne {m : Memory} {slot other : Slot} (h : other ≠ slot) (v : Float) :
    (m.store slot v).load other = m.load other := by
  cases slot <;> cases other <;> simp_all [store, load, List.getD, List.getElem?_set_ne, Ne.symm]

theorem load_store_pixel {m : Memory} {i : Nat} (h : i < m.pixelValues.length) (v : Float) :
    (m.store (.pixel i) v).load (.pixel i) = v := by
  simp [store, load, h]

end Memory

namespace Machine

/-- The slot of a round holds its value. -/
def Round.Holds (r : Round) (m : Memory) : Prop := r.values[r.index]? = some (m.load r.slot)

/-- A memory with the given number of pixel slots, in which rounds hold their values. -/
structure Holding (size : Nat) (rounds : List Round) (m : Memory) : Prop where
  size : m.pixelValues.length = size
  values : ∀ r ∈ rounds, r.Holds m

/-- Statements that store to the given slots and loop over values with the given slots, and leave
the slots of the rounds around them alone. -/
structure Guarded (size : Nat) (rounds : List Round) (stores headers : List Slot) : Prop where
  nodup : headers.Nodup
  unstored : ∀ slot ∈ headers, slot ∉ stores
  pixel : ∀ slot ∈ headers, ∃ i < size, slot = .pixel i
  outer : ∀ r ∈ rounds, r.slot ∉ stores ∧ r.slot ∉ headers

section Guarded

variable {size : Nat} {rounds : List Round} {stores headers stores' headers' : List Slot}

theorem Guarded.left (h : Guarded size rounds (stores ++ stores') (headers ++ headers')) :
    Guarded size rounds stores headers where
  nodup := (List.nodup_append'.mp h.nodup).1
  unstored slot hslot hmem :=
    h.unstored slot (List.mem_append_left _ hslot) (List.mem_append_left _ hmem)
  pixel slot hslot := h.pixel slot (List.mem_append_left _ hslot)
  outer r hr :=
    ⟨fun hmem => (h.outer r hr).1 (List.mem_append_left _ hmem),
      fun hmem => (h.outer r hr).2 (List.mem_append_left _ hmem)⟩

theorem Guarded.right (h : Guarded size rounds (stores ++ stores') (headers ++ headers')) :
    Guarded size rounds stores' headers' where
  nodup := (List.nodup_append'.mp h.nodup).2.1
  unstored slot hslot hmem :=
    h.unstored slot (List.mem_append_right _ hslot) (List.mem_append_right _ hmem)
  pixel slot hslot := h.pixel slot (List.mem_append_right _ hslot)
  outer r hr :=
    ⟨fun hmem => (h.outer r hr).1 (List.mem_append_right _ hmem),
      fun hmem => (h.outer r hr).2 (List.mem_append_right _ hmem)⟩

/-- The body of a loop leaves the loop's own rounds alone, too. -/
theorem Guarded.body {var : Slot} (h : Guarded size rounds stores (var :: headers)) {r : Round}
    (hr : r.slot = var) : Guarded size (r :: rounds) stores headers where
  nodup := (List.nodup_cons.mp h.nodup).2
  unstored slot hslot := h.unstored slot (List.mem_cons_of_mem _ hslot)
  pixel slot hslot := h.pixel slot (List.mem_cons_of_mem _ hslot)
  outer := by
    subst hr
    refine List.forall_mem_cons.mpr ⟨⟨h.unstored _ List.mem_cons_self, ?_⟩, fun s hs => ?_⟩
    · exact (List.nodup_cons.mp h.nodup).1
    · exact ⟨(h.outer s hs).1, fun hmem => (h.outer s hs).2 (List.mem_cons_of_mem _ hmem)⟩

/-- Rounds hold their values whatever is put into other slots. -/
theorem Holding.unaffected :
    Memory.Unaffected (fun slot => ∀ r ∈ rounds, r.slot ≠ slot) (Holding size rounds) where
  store := by
    intro slot hslot m v hm
    refine ⟨?_, fun r hr => ?_⟩
    · rw [← hm.size]
      cases slot <;> simp [Memory.store]
    · rw [Round.Holds, Memory.load_store_of_ne (hslot r hr)]
      exact hm.values r hr
  storeList i vs hm := ⟨hm.size, hm.values⟩
  write i v hm := ⟨hm.size, hm.values⟩

/-- Guarded statements keep what the rounds around them hold. -/
theorem Guarded.execAll_keeps {limit : Nat} {env : Environment} {ss : List Code.Stmt}
    (h : Guarded size rounds (Code.stmtsStores ss) (Code.stmtsHeaders ss)) (m : Memory)
    (hm : Holding size rounds m) : Holding size rounds (execAll limit env ss m).1 :=
  Machine.execAll_keeps Holding.unaffected ss (fun _ hslot r hr heq => (h.outer r hr).1 (heq ▸ hslot))
    (fun _ hslot r hr heq => (h.outer r hr).2 (heq ▸ hslot)) m hm

theorem Guarded.exec_keeps {limit : Nat} {env : Environment} {s : Code.Stmt}
    (h : Guarded size rounds s.stores s.headers) (m : Memory) (hm : Holding size rounds m) :
    Holding size rounds (exec limit env s m).1 :=
  Machine.exec_keeps Holding.unaffected s (fun _ hslot r hr heq => (h.outer r hr).1 (heq ▸ hslot))
    (fun _ hslot r hr heq => (h.outer r hr).2 (heq ▸ hslot)) m hm

end Guarded

/-- At every one of the moments all rounds hold their values. -/
def AllHold (ms : List Moment) : Prop := ∀ m ∈ ms, ∀ r ∈ m.rounds, r.Holds m.memory

namespace AllHold

variable {size : Nat} {rounds : List Round} {body : Effect}

private theorem nil : AllHold [] := fun _ h => nomatch h

private theorem cons {m : Memory} {refers : List Reference} {ms : List Moment}
    (hm : Holding size rounds m) (h : AllHold ms) : AllHold (⟨rounds, refers, m⟩ :: ms) :=
  List.forall_mem_cons.mpr ⟨hm.values, h⟩

theorem append {ms ns : List Moment} (hms : AllHold ms) (hns : AllHold ns) : AllHold (ms ++ ns) :=
  List.forall_mem_append.mpr ⟨hms, hns⟩

theorem following {rest : Memory → List Moment} {q : Memory × Outcome} (hq : Holding size rounds q.1)
    (hrest : ∀ m, Holding size rounds m → AllHold (rest m)) :
    AllHold (Machine.following rest q) := by
  obtain ⟨m, how⟩ := q
  cases how with
  | next => exact hrest m hq
  | leave => exact nil
  | stop halt => exact nil

theorem afterValue {α : Type} {x : Except Failure α} {k : α → List Moment}
    (hk : ∀ a, AllHold (k a)) : AllHold (Machine.afterValue x k) := by
  cases x with
  | error f => exact nil
  | ok a => exact hk a

theorem repeatMoments {test : Memory → Except Failure Bool} {refers : List Reference}
    {inner : Memory → List Moment} (hbody : ∀ m, Holding size rounds m → Holding size rounds (body m).1)
    (hinner : ∀ m, Holding size rounds m → AllHold (inner m)) (count : Nat) (m : Memory)
    (hm : Holding size rounds m) :
    AllHold (Machine.repeatMoments test (fun m => ⟨rounds, refers, m⟩) body inner count m) := by
  induction count generalizing m with
  | zero => exact nil
  | succ count ih =>
    rw [Machine.repeatMoments]
    refine cons hm ?_
    split
    · exact (hinner m hm).append (following (hbody m hm) ih)
    · exact nil

/-- The rounds of a loop over values, from the one after those of the values `before` on. -/
theorem eachMoments {i : Nat} (hi : i < size) (hslot : ∀ r ∈ rounds, r.slot ≠ .pixel i)
    {inner : Round → Memory → List Moment}
    (hbody : ∀ m, Holding size rounds m → Holding size rounds (body m).1)
    (hinner : ∀ r m, r.slot = .pixel i → Holding size (r :: rounds) m → AllHold (inner r m))
    (before vs : List Float) (m : Memory) (hm : Holding size rounds m) :
    AllHold (Machine.eachMoments (.pixel i) (before ++ vs) body inner before.length vs m) := by
  induction vs generalizing before m with
  | nil => exact nil
  | cons v vs ih =>
    have hstored := Holding.unaffected.store hslot v hm
    have hround : Round.Holds ⟨.pixel i, before ++ v :: vs, before.length⟩ (m.store (.pixel i) v) := by
      rw [Round.Holds, Memory.load_store_pixel (hm.size ▸ hi)]
      simp
    rw [Machine.eachMoments]
    refine append (hinner _ _ rfl ⟨hstored.size, ?_⟩) (following (hbody _ hstored) fun m hm => ?_)
    · exact List.forall_mem_cons.mpr ⟨hround, hstored.values⟩
    · have hrest := ih (before ++ [v]) m hm
      rwa [List.append_assoc, List.length_append] at hrest

end AllHold

section Runs

variable {size limit : Nat} {env : Environment}

/-- The body of a loop over values, in every round. -/
theorem each_hold {var : Slot} {body : List Code.Stmt}
    (hbody : ∀ rounds, Guarded size rounds (Code.stmtsStores body) (Code.stmtsHeaders body) →
      ∀ m, Holding size rounds m → AllHold (allMoments limit env body rounds m))
    {rounds : List Round}
    (h : Guarded size rounds (Code.stmtsStores body) (var :: Code.stmtsHeaders body))
    (vs : List Float) (m : Memory) (hm : Holding size rounds m) :
    AllHold (eachMoments var vs (execAll limit env body)
      (fun r => allMoments limit env body (r :: rounds)) 0 vs m) := by
  obtain ⟨i, hi, rfl⟩ := h.pixel var List.mem_cons_self
  have hslot : ∀ r ∈ rounds, r.slot ≠ .pixel i := fun r hr heq =>
    (h.outer r hr).2 (heq ▸ List.mem_cons_self)
  have hkept : Guarded size rounds (Code.stmtsStores body) (Code.stmtsHeaders body) :=
    @Guarded.right size rounds [] [.pixel i] _ _ h
  exact .eachMoments hi hslot hkept.execAll_keeps (fun r m hr => hbody _ (h.body hr) m) [] vs m hm

mutual

/-- Guarded statements find all rounds holding their values, whenever they evaluate something. -/
theorem moments_hold : ∀ (s : Code.Stmt) (rounds : List Round),
    Guarded size rounds s.stores s.headers → ∀ m, Holding size rounds m →
      AllHold (moments limit env s rounds m)
  | .store _ _, _, _, _, hm => .cons hm .nil
  | .storeList _ _, _, _, _, hm => .cons hm .nil
  | .write _ _, _, _, _, hm => .cons hm .nil
  | .cond test yes no, rounds, h, m, hm => by
    rw [moments]
    refine .cons hm (.afterValue fun v => ?_)
    split
    · exact allMoments_hold yes rounds h.left m hm
    · exact allMoments_hold no rounds h.right m hm
  | .loop _ _ body, rounds, h, m, hm => by
    rw [moments]
    exact .repeatMoments (Guarded.execAll_keeps h) (allMoments_hold body rounds h) limit m hm
  | .foreachItem _ _ body, rounds, h, m, hm => by
    rw [moments]
    exact .cons hm (.afterValue fun vs => each_hold (allMoments_hold body) h vs m hm)
  | .foreachInt _ _ _ body, rounds, h, m, hm => by
    rw [moments]
    exact .cons hm (.afterValue fun vs => each_hold (allMoments_hold body) h vs m hm)
  | .breakIf _, _, _, _, hm => .cons hm .nil
  | .leave, _, _, _, _ => .nil

theorem allMoments_hold : ∀ (ss : List Code.Stmt) (rounds : List Round),
    Guarded size rounds (Code.stmtsStores ss) (Code.stmtsHeaders ss) → ∀ m, Holding size rounds m →
      AllHold (allMoments limit env ss rounds m)
  | [], _, _, _, _ => .nil
  | s :: ss, rounds, h, m, hm => by
    rw [allMoments]
    refine (moments_hold s rounds h.left m hm).append ?_
    exact .following (Guarded.exec_keeps h.left m hm) (allMoments_hold ss rounds h.right)

end

end Runs

/-! ### Where moments come from -/

/-- What is referred to at the moments stands in the bodies of the loops of their rounds. -/
def AllRead (reads : List (List Slot × Reference)) (ms : List Moment) : Prop :=
  ∀ m ∈ ms, ∀ r ∈ m.refers, (m.rounds.map Round.slot, r) ∈ reads

namespace AllRead

variable {reads more : List (List Slot × Reference)} {ms ns : List Moment} {rounds : List Round}
  {refers : List Reference}

private theorem nil : AllRead reads [] := fun _ h => nomatch h

theorem append (hms : AllRead reads ms) (hns : AllRead reads ns) : AllRead reads (ms ++ ns) :=
  List.forall_mem_append.mpr ⟨hms, hns⟩

theorem left (h : AllRead reads ms) : AllRead (reads ++ more) ms :=
  fun m hm r hr => List.mem_append_left _ (h m hm r hr)

theorem right (h : AllRead more ms) : AllRead (reads ++ more) ms :=
  fun m hm r hr => List.mem_append_right _ (h m hm r hr)

private theorem one (m : Memory) :
    AllRead (Code.reading (rounds.map Round.slot) refers) [⟨rounds, refers, m⟩] :=
  List.forall_mem_singleton.mpr fun _ hr => Code.mem_reading.mpr ⟨rfl, hr⟩

/-- What is evaluated first, and what comes after it. -/
theorem cons (m : Memory) (h : AllRead more ms) :
    AllRead (Code.reading (rounds.map Round.slot) refers ++ more) (⟨rounds, refers, m⟩ :: ms) :=
  (one m).left.append h.right

theorem following {rest : Memory → List Moment} (h : ∀ m, AllRead reads (rest m))
    (q : Memory × Outcome) : AllRead reads (Machine.following rest q) := by
  obtain ⟨m, how⟩ := q
  cases how with
  | next => exact h m
  | leave => exact nil
  | stop halt => exact nil

theorem afterValue {α : Type} {k : α → List Moment} (h : ∀ a, AllRead reads (k a))
    (x : Except Failure α) : AllRead reads (Machine.afterValue x k) := by
  cases x with
  | error f => exact nil
  | ok a => exact h a

theorem repeatMoments {test : Memory → Except Failure Bool} {body : Effect}
    {inner : Memory → List Moment} (h : ∀ m, AllRead more (inner m)) (count : Nat) (m : Memory) :
    AllRead (Code.reading (rounds.map Round.slot) refers ++ more)
      (Machine.repeatMoments test (fun m => ⟨rounds, refers, m⟩) body inner count m) := by
  induction count generalizing m with
  | zero => exact nil
  | succ count ih =>
    rw [Machine.repeatMoments]
    refine append (one m).left ?_
    split
    · exact (h m).right.append (following ih _)
    · exact nil

theorem eachMoments {var : Slot} {values : List Float} {body : Effect}
    {inner : Round → Memory → List Moment} (h : ∀ r m, r.slot = var → AllRead reads (inner r m))
    (index : Nat) (vs : List Float) (m : Memory) :
    AllRead reads (Machine.eachMoments var values body inner index vs m) := by
  induction vs generalizing index m with
  | nil => exact nil
  | cons v vs ih => exact (h _ _ rfl).append (following (ih (index + 1)) _)

end AllRead

section Reads

variable {limit : Nat} {env : Environment}

/-- The body of a loop over values reads inside that loop. -/
theorem each_read {var : Slot} {body : List Code.Stmt} (rounds : List Round)
    (hbody : ∀ rounds m, AllRead (Code.stmtsReads (rounds.map Round.slot) body)
      (allMoments limit env body rounds m)) (vs : List Float) (m : Memory) :
    AllRead (Code.stmtsReads (var :: rounds.map Round.slot) body)
      (eachMoments var vs (execAll limit env body)
        (fun r => allMoments limit env body (r :: rounds)) 0 vs m) := by
  refine .eachMoments (fun r m hr => ?_) 0 vs m
  subst hr
  exact hbody (r :: rounds) m

mutual

private theorem moments_read : ∀ (s : Code.Stmt) (rounds : List Round) (m : Memory),
    AllRead (s.reads (rounds.map Round.slot)) (moments limit env s rounds m)
  | .store _ _, _, m => .one m
  | .storeList _ _, _, m => .one m
  | .write _ _, _, m => .one m
  | .cond test yes no, rounds, m => by
    rw [moments, Code.Stmt.reads]
    refine .cons m (.afterValue (fun v => ?_) _)
    split
    · exact (allMoments_read yes rounds m).left
    · exact (allMoments_read no rounds m).right
  | .loop _ _ body, rounds, m => by
    rw [moments, Code.Stmt.reads]
    exact .repeatMoments (allMoments_read body rounds) limit m
  | .foreachItem _ _ body, rounds, m => by
    rw [moments, Code.Stmt.reads]
    exact .cons m (.afterValue (fun vs => each_read rounds (allMoments_read body) vs m) _)
  | .foreachInt _ _ _ body, rounds, m => by
    rw [moments, Code.Stmt.reads]
    exact .cons m (.afterValue (fun vs => each_read rounds (allMoments_read body) vs m) _)
  | .breakIf _, _, m => .one m
  | .leave, _, _ => .nil

theorem allMoments_read : ∀ (ss : List Code.Stmt) (rounds : List Round) (m : Memory),
    AllRead (Code.stmtsReads (rounds.map Round.slot) ss) (allMoments limit env ss rounds m)
  | [], _, _ => .nil
  | s :: ss, rounds, m => by
    rw [allMoments, Code.stmtsReads]
    exact (moments_read s rounds m).left.append
      (.following (fun m => (allMoments_read ss rounds m).right) _)

end

end Reads

end Machine

end RasterScript
