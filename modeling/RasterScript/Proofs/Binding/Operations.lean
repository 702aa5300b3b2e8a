import RasterScript.Proofs.Binding.Places

/-! Symbol tables after any sequence of operations, in whatever order scopes are opened and names
declared. Main statement: counters, numbers, names and parents stay in step with the scopes and
symbols, nothing that was declared ever changes, and a name is found in the nearest scope that
declares it. Numbers of 32 bits make no difference as long as they are enough. -/
namespace RasterScript.SymbolTable

open Number (twoTo)

/-- What is done to a table. -/
inductive Operation where
  | push (parent : ScopeId) (kind : ScopeKind)
  | declare (scope : ScopeId) (name : String) (kind : SymbolKind) (span : Span)
deriving DecidableEq, Repr

/-- Whether an operation names a scope that is there. -/
def fits (t : SymbolTable) : Operation → Bool
  | .push parent _ => parent < t.scopes.length
  | .declare scope _ _ _ => scope < t.scopes.length

def perform (t : SymbolTable) : Operation → SymbolTable
  | .push parent kind => (t.pushScope parent kind).1
  | .declare scope name kind span => (t.declare scope name kind span).1

/-- The table after operations in turn. -/
def performAll (t : SymbolTable) : List Operation → SymbolTable
  | [] => t
  | op :: ops => (t.perform op).performAll ops

/-- The table after an operation, with numbers of 32 bits. -/
def performIn (w : Words) (t : SymbolTable) : Operation → Option SymbolTable
  | .push parent kind => (t.pushScopeIn w parent kind).map Prod.fst
  | .declare scope name kind span => (t.declareIn w scope name kind span).map Prod.fst

def performAllIn (w : Words) (t : SymbolTable) : List Operation → Option SymbolTable
  | [] => some t
  | op :: ops => (t.performIn w op).bind fun u => u.performAllIn w ops

/-- Whether each of the operations names a scope that is there when its turn comes. -/
def allFit (t : SymbolTable) : List Operation → Bool
  | [] => true
  | op :: ops => t.fits op && (t.perform op).allFit ops

/-- All parts are in step, symbols stand in scopes that are there, and parents come before. -/
structure Coherent (t : SymbolTable) : Prop extends InStep t where
  inside : ∀ s ∈ t.symbols, s.scope < t.scopes.length
  parents : ∀ {i p} {scope : Scope}, t.scopes[i]? = some scope → scope.parent = some p → p < i

/-- A later table: nothing that was there has changed. -/
structure Grows (t u : SymbolTable) : Prop where
  scopes : t.scopes <+: u.scopes
  symbols : t.symbols <+: u.symbols

theorem Grows.refl (t : SymbolTable) : Grows t t := ⟨List.prefix_rfl, List.prefix_rfl⟩

theorem Grows.trans {t u v : SymbolTable} (h : Grows t u) (k : Grows u v) : Grows t v :=
  ⟨h.scopes.trans k.scopes, h.symbols.trans k.symbols⟩

/-! ### What one operation keeps -/

section Steps

variable {t : SymbolTable} {op : Operation}

private theorem coherent_initial : Coherent initial where
  toInStep := inStep_initial
  inside := fun _ hs => absurd hs List.not_mem_nil
  parents := by
    intro i p scope hi hp
    cases i with
    | zero =>
      cases hi
      cases hp
    | succ i =>
      cases i with
      | zero =>
        cases hi
        cases hp
        exact Nat.one_pos
      | succ i => cases hi

theorem Coherent.push (h : Coherent t) {parent : ScopeId} (hlt : parent < t.scopes.length)
    (kind : ScopeKind) : Coherent (t.pushScope parent kind).1 where
  toInStep := h.toInStep.pushScope parent kind
  inside := by
    intro s hs
    simp only [pushScope, addScope, List.length_append]
    exact Nat.lt_add_right _ (h.inside s hs)
  parents := by
    intro i p scope hi hp
    simp only [pushScope, addScope] at hi
    rw [List.getElem?_append] at hi
    split at hi
    · exact h.parents hi hp
    · next hge =>
      -- The new scope has the next number, and its parent was there before.
      obtain ⟨_, rfl⟩ := List.getElem?_eq_some_iff.mp hi
      simp only [List.getElem_singleton, Option.some.injEq] at hp
      exact hp ▸ Nat.lt_of_lt_of_le hlt (Nat.not_lt.mp hge)

theorem Coherent.withSymbol (h : Coherent t) {scope : ScopeId} {name : String}
    (hlt : scope < t.scopes.length) (hnew : t.lookup scope name = none) (kind : SymbolKind)
    (span : Span) : Coherent (t.withSymbol scope name kind span) where
  toInStep := h.toInStep.withSymbol hnew
  inside := by
    intro s hs
    rcases List.mem_append.mp hs with hs | hs
    · exact h.inside s hs
    · rw [List.mem_singleton.mp hs]
      exact hlt
  parents := h.parents

theorem Coherent.perform (h : Coherent t) (hop : t.fits op) : Coherent (t.perform op) := by
  cases op with
  | push parent kind => exact h.push (of_decide_eq_true hop) kind
  | declare scope name kind span =>
    show Coherent (t.declare scope name kind span).1
    cases hl : t.lookup scope name with
    | none =>
      rw [h.declare_new hl]
      exact h.withSymbol (of_decide_eq_true hop) hl kind span
    | some s =>
      rw [h.declare_old hl]
      exact h

private theorem grows_perform (t : SymbolTable) (op : Operation) : Grows t (t.perform op) := by
  cases op with
  | push parent kind => exact ⟨List.prefix_append _ _, List.prefix_rfl⟩
  | declare scope name kind span =>
    show Grows t (t.declare scope name kind span).1
    rw [declare]
    split
    · exact .refl t
    · exact ⟨List.prefix_rfl, List.prefix_append _ _⟩

end Steps

/-! ### What all operations keep -/

section Runs

variable {t : SymbolTable}

theorem Coherent.performAll (h : Coherent t) {ops : List Operation} (hops : t.allFit ops) :
    Coherent (t.performAll ops) := by
  induction ops generalizing t with
  | nil => exact h
  | cons op ops ih =>
    obtain ⟨hop, hops⟩ := Bool.and_eq_true_iff.mp hops
    exact ih (h.perform hop) hops

private theorem grows_performAll (t : SymbolTable) (ops : List Operation) :
    Grows t (t.performAll ops) := by
  induction ops generalizing t with
  | nil => exact .refl t
  | cons op ops ih => exact (grows_perform t op).trans (ih (t.perform op))

end Runs

/-! ### Numbers of 32 bits -/

/-- Both counters have 32 bits. -/
def Narrow (t : SymbolTable) : Prop := t.ids.nextScope < twoTo 32 ∧ t.ids.nextSymbol < twoTo 32

section Narrow

variable {w : Words} {t u : SymbolTable} {op : Operation} {ops : List Operation} {m n : Nat}

private theorem unsigned32_lt (h : w.unsigned32 n = some m) : m < twoTo 32 := by
  rw [(Words.truncated_eq_some_iff.mp h).1]
  exact Nat.mod_lt n (by decide)

private theorem unsigned32_checked (h : Words.checked.unsigned32 n = some m) : m = n := by
  obtain ⟨rfl, hlt⟩ := Words.truncated_eq_some_iff.mp h
  exact Nat.mod_eq_of_lt (hlt rfl)

/-- Counters only go up. -/
private theorem narrow_of_perform (h : Narrow (t.perform op)) : Narrow t := by
  cases op with
  | push parent kind => exact ⟨Nat.lt_of_succ_lt h.1, h.2⟩
  | declare scope name kind span =>
    rw [perform, declare] at h
    split at h
    · exact h
    · exact ⟨h.1, Nat.lt_of_succ_lt h.2⟩

private theorem performIn_eq (h : Narrow (t.perform op)) :
    t.performIn w op = some (t.perform op) := by
  cases op with
  | push parent kind =>
    have hnext : w.unsigned32 (t.ids.nextScope + 1) = some (t.ids.nextScope + 1) :=
      Words.truncated_of_lt h.1
    rw [performIn, pushScopeIn, IdAllocator.allocScopeIn, hnext]
    rfl
  | declare scope name kind span =>
    rw [perform, declare] at h
    rw [performIn, perform, declareIn, declare]
    split at h
    · rfl
    · have hnext : w.unsigned32 (t.ids.nextSymbol + 1) = some (t.ids.nextSymbol + 1) :=
        Words.truncated_of_lt h.2
      simp only [IdAllocator.allocSymbolIn, hnext]
      rfl

/-- An operation finds a name that is there, or adds one to a counter as far as 32 bits allow. -/
private theorem performIn_cases (h : t.performIn w op = some u) :
    (u = t ∧ t.perform op = t) ∨
    (∃ next, w.unsigned32 (t.ids.nextScope + 1) = some next ∧
      u = { t.perform op with ids := { t.ids with nextScope := next } } ∧
      (t.perform op).ids = { t.ids with nextScope := t.ids.nextScope + 1 }) ∨
    ∃ next, w.unsigned32 (t.ids.nextSymbol + 1) = some next ∧
      u = { t.perform op with ids := { t.ids with nextSymbol := next } } ∧
      (t.perform op).ids = { t.ids with nextSymbol := t.ids.nextSymbol + 1 } := by
  cases op with
  | push parent kind =>
    rw [performIn, pushScopeIn, IdAllocator.allocScopeIn] at h
    simp only [Option.map_map, Option.map_eq_some_iff] at h
    obtain ⟨next, hnext, rfl⟩ := h
    exact .inr (.inl ⟨next, hnext, rfl, rfl⟩)
  | declare scope name kind span =>
    rw [performIn, declareIn] at h
    rw [perform, declare]
    split at h
    · cases h
      exact .inl ⟨rfl, rfl⟩
    · simp only [IdAllocator.allocSymbolIn, Option.map_map, Option.map_eq_some_iff] at h
      obtain ⟨next, hnext, rfl⟩ := h
      exact .inr (.inr ⟨next, hnext, rfl, rfl⟩)

private theorem narrow_performIn (ht : Narrow t) (h : t.performIn w op = some u) : Narrow u := by
  rcases performIn_cases h with ⟨rfl, -⟩ | ⟨next, hnext, rfl, -⟩ | ⟨next, hnext, rfl, -⟩
  · exact ht
  · exact ⟨unsigned32_lt hnext, ht.2⟩
  · exact ⟨ht.1, unsigned32_lt hnext⟩

private theorem eq_of_performIn (h : t.performIn .checked op = some u) : u = t.perform op := by
  rcases performIn_cases h with ⟨rfl, hsame⟩ | ⟨next, hnext, rfl, hids⟩ | ⟨next, hnext, rfl, hids⟩
  · exact hsame.symm
  · rw [unsigned32_checked hnext, ← hids]
  · rw [unsigned32_checked hnext, ← hids]

private theorem narrow_of_performAll (h : Narrow (t.performAll ops)) : Narrow t := by
  induction ops generalizing t with
  | nil => exact h
  | cons op ops ih => exact narrow_of_perform (ih h)

private theorem performAllIn_eq (h : Narrow (t.performAll ops)) :
    t.performAllIn w ops = some (t.performAll ops) := by
  induction ops generalizing t with
  | nil => rfl
  | cons op ops ih =>
    rw [performAllIn, performIn_eq (narrow_of_performAll h), Option.bind_some]
    exact ih h

private theorem narrow_performAllIn (ht : Narrow t) (h : t.performAllIn w ops = some u) :
    Narrow u := by
  induction ops generalizing t with
  | nil =>
    cases h
    exact ht
  | cons op ops ih =>
    obtain ⟨v, hv, hrest⟩ := Option.bind_eq_some_iff.mp h
    exact ih (narrow_performIn ht hv) hrest

/-- The run is the one with numbers that never end if, and only if, its counters fit. -/
theorem performAllIn_eq_some_iff (ht : Narrow t) :
    t.performAllIn w ops = some (t.performAll ops) ↔ Narrow (t.performAll ops) :=
  ⟨narrow_performAllIn ht, performAllIn_eq⟩

/-- Checked numbers stop the program or change nothing. -/
theorem eq_of_performAllIn (h : t.performAllIn .checked ops = some u) : u = t.performAll ops := by
  induction ops generalizing t with
  | nil =>
    cases h
    rfl
  | cons op ops ih =>
    obtain ⟨v, hv, hrest⟩ := Option.bind_eq_some_iff.mp h
    rw [eq_of_performIn hv] at hrest
    exact ih hrest

end Narrow

/-! ### Names in scopes -/

/-- A scope and those around it up to the outermost, the nearest first. -/
inductive Outward (t : SymbolTable) : ScopeId → List ScopeId → Prop where
  | outermost {s kind} : t.scope? s = some ⟨s, kind, none⟩ → Outward t s [s]
  | inside {s kind parent path} : t.scope? s = some ⟨s, kind, some parent⟩ →
      Outward t parent path → Outward t s (s :: path)

/-- A symbol is declared in a scope under a name. -/
structure Declares (t : SymbolTable) (scope : ScopeId) (name : String) (s : Symbol) : Prop where
  mem : s ∈ t.symbols
  scope : s.scope = scope
  name : s.name = name

section Resolve

variable {t : SymbolTable} {scope : ScopeId} {name : String} {s : Symbol}

theorem InStep.idOf?_eq_some_iff (h : InStep t) {id : SymbolId} :
    t.idOf? scope name = some id ↔ ∃ s, t.Declares scope name s ∧ s.id = id := by
  rw [h.names]
  constructor
  · rintro ⟨s, hs, hscope, hname⟩
    exact ⟨s, ⟨List.mem_of_getElem? hs, hscope, hname⟩, h.ids hs⟩
  · rintro ⟨s, hs, rfl⟩
    exact ⟨s, h.symbol?_id hs.mem, hs.scope, hs.name⟩

theorem InStep.idOf?_eq_none_iff (h : InStep t) :
    t.idOf? scope name = none ↔ ∀ s, ¬ t.Declares scope name s := by
  simp only [Option.eq_none_iff_forall_ne_some, ne_eq, h.idOf?_eq_some_iff]
  exact ⟨fun hnone s hs => hnone s.id ⟨s, hs, rfl⟩, fun hnone _ ⟨s, hs, _⟩ => hnone s hs⟩

/-- Parents have smaller numbers, so the outermost scope is reached before the bound is. -/
theorem Coherent.outward_chain (h : Coherent t) (hlt : scope < t.scopes.length) {n : Nat}
    (hn : scope < n) : t.Outward scope (t.chain n scope) := by
  induction n generalizing scope with
  | zero => cases hn
  | succ n ih =>
    obtain ⟨⟨id, kind, parent⟩, hscope⟩ : ∃ sc, t.scope? scope = some sc :=
      ⟨_, List.getElem?_eq_getElem hlt⟩
    obtain rfl : scope = id := (h.scopeIds hscope).symm
    rw [chain, hscope]
    cases parent with
    | none => exact .outermost hscope
    | some p =>
      have hp : p < scope := h.parents hscope rfl
      exact .inside hscope (ih (Nat.lt_trans hp hlt) (Nat.lt_of_lt_of_le hp (Nat.le_of_lt_succ hn)))

theorem Coherent.outward_ancestors (h : Coherent t) (hlt : scope < t.scopes.length) :
    t.Outward scope (t.ancestors scope) :=
  h.outward_chain hlt (Nat.lt_succ_of_lt hlt)

/-- The number that is found belongs to the symbol that the nearest scope declares. -/
theorem InStep.resolveId?_eq_some_iff (h : InStep t) {id : SymbolId} :
    t.resolveId? scope name = some id ↔
      ∃ s near far, s.id = id ∧ t.ancestors scope = near ++ s.scope :: far ∧
        t.Declares s.scope name s ∧ ∀ closer ∈ near, ∀ r, ¬ t.Declares closer name r := by
  simp only [resolveId?, List.findSome?_eq_some_iff, h.idOf?_eq_some_iff, h.idOf?_eq_none_iff]
  constructor
  · rintro ⟨near, found, far, hpath, ⟨s, hs, hid⟩, hnear⟩
    obtain rfl := hs.scope
    exact ⟨s, near, far, hid, hpath, hs, hnear⟩
  · rintro ⟨s, near, far, hid, hpath, hs, hnear⟩
    exact ⟨near, s.scope, far, hpath, ⟨s, hs, hid⟩, hnear⟩

theorem InStep.resolve_eq_some_iff (h : InStep t) :
    t.resolve scope name = some s ↔
      ∃ near far, t.ancestors scope = near ++ s.scope :: far ∧ t.Declares s.scope name s ∧
        ∀ closer ∈ near, ∀ r, ¬ t.Declares closer name r := by
  rw [resolve, Option.bind_eq_some_iff]
  constructor
  · rintro ⟨id, hid, hsymbol⟩
    obtain ⟨r, near, far, rfl, hpath, hr, hnear⟩ := h.resolveId?_eq_some_iff.mp hid
    obtain rfl := Option.some.inj ((h.symbol?_id hr.mem).symm.trans hsymbol)
    exact ⟨near, far, hpath, hr, hnear⟩
  · rintro ⟨near, far, hpath, hs, hnear⟩
    exact ⟨s.id, h.resolveId?_eq_some_iff.mpr ⟨s, near, far, rfl, hpath, hs, hnear⟩,
      h.symbol?_id hs.mem⟩

theorem InStep.resolveId?_eq_none_iff (h : InStep t) :
    t.resolveId? scope name = none ↔
      ∀ around ∈ t.ancestors scope, ∀ r, ¬ t.Declares around name r := by
  simp only [resolveId?, List.findSome?_eq_none_iff, h.idOf?_eq_none_iff]

theorem InStep.resolveId?_eq (h : InStep t) :
    t.resolveId? scope name = (t.resolve scope name).map Symbol.id := by
  rw [resolve]
  cases hid : t.resolveId? scope name with
  | none => rfl
  | some id =>
    obtain ⟨s, _, _, rfl, -, hs, -⟩ := h.resolveId?_eq_some_iff.mp hid
    rw [Option.bind_some, h.symbol?_id hs.mem, Option.map_some]

/-- A second declaration of a name finds its symbol and changes nothing; another kind is a
conflict. -/
theorem InStep.declare_again (h : InStep t) (hs : s ∈ t.symbols) (kind : SymbolKind)
    (span : Span) :
    t.declare s.scope s.name kind span =
      (t, s.id, if s.kind = kind then none else some ⟨s.name, s.kind, kind⟩) :=
  h.declare_old (h.lookup_eq hs)

theorem InStep.declare_fresh (h : InStep t) (hnone : ∀ r, ¬ t.Declares scope name r)
    (kind : SymbolKind) (span : Span) :
    t.declare scope name kind span =
      (t.withSymbol scope name kind span, t.symbols.length, none) := by
  refine h.declare_new ?_
  rw [lookup, h.idOf?_eq_none_iff.mpr hnone, Option.bind_none]

end Resolve

/-- After any operations on existing scopes the counters, the numbers, the index of names and the
parents are in step with the scopes and symbols. With numbers of 32 bits the table is the same as
long as these can count the scopes and the symbols, and checked ones never give another. A name that
is new in its scope gets the next number. A second declaration is reported once if its kind differs,
and changes nothing. What is there stays as it is. A name is that of the nearest scope around that
declares it, and the way outward always ends. -/
theorem operations_keep_coherence (ops : List Operation) (hops : initial.allFit ops) :
    let t := initial.performAll ops
    Coherent t ∧
    (∀ w, initial.performAllIn w ops = some t ↔
      t.scopes.length < twoTo 32 ∧ t.symbols.length < twoTo 32) ∧
    (∀ u, initial.performAllIn .checked ops = some u → u = t) ∧
    (∀ scope name id, t.idOf? scope name = some id ↔ ∃ s, t.Declares scope name s ∧ s.id = id) ∧
    (∀ scope name kind span, (∀ r, ¬ t.Declares scope name r) →
      t.declare scope name kind span =
        (t.withSymbol scope name kind span, t.symbols.length, none)) ∧
    (∀ a : Binding.Analysis, a.binding.table = t → ∀ s ∈ t.symbols, ∀ kind span,
      ∃ reported : List (Located Binding.Fault),
        (Binding.declare s.scope s.name kind span).run a =
            (s.id, { a with faults := a.faults ++ reported }) ∧
          reported.map (fun f => (f.what.code, f.span)) =
            if s.kind = kind then [] else [("E0107", span)]) ∧
    (∀ parent kind, (t.pushScope parent kind).2 = t.scopes.length ∧
      (t.pushScope parent kind).1.scope? t.scopes.length =
        some ⟨t.scopes.length, kind, some parent⟩) ∧
    (∀ more, Grows t (t.performAll more)) ∧
    ∀ scope < t.scopes.length, t.Outward scope (t.ancestors scope) ∧
      ∀ name, t.resolveId? scope name = (t.resolve scope name).map Symbol.id ∧
        (∀ s, t.resolve scope name = some s ↔
          ∃ near far, t.ancestors scope = near ++ s.scope :: far ∧ t.Declares s.scope name s ∧
            ∀ closer ∈ near, ∀ r, ¬ t.Declares closer name r) ∧
        (t.resolveId? scope name = none ↔
          ∀ around ∈ t.ancestors scope, ∀ r, ¬ t.Declares around name r) := by
  intro t
  have ht : Coherent t := coherent_initial.performAll hops
  refine ⟨ht, ?_, fun u => eq_of_performAllIn, fun scope name id => ht.idOf?_eq_some_iff, ?_, ?_,
    ?_, grows_performAll t, ?_⟩
  · intro w
    have hstart : Narrow initial := ⟨by decide, by decide⟩
    rw [performAllIn_eq_some_iff hstart, Narrow, ht.nextScope, ht.nextSymbol]
  · intro scope name kind span hnone
    exact ht.declare_fresh hnone kind span
  · intro a ha s hs kind span
    refine ⟨if s.kind = kind then [] else [⟨.kindConflict ⟨s.name, s.kind, kind⟩, span⟩], ?_, ?_⟩
    · rw [Binding.declare_run, ha, ht.declare_again hs, ← ha]
      by_cases hkind : s.kind = kind
      · simp [hkind]
      · simp [hkind]
    · by_cases hkind : s.kind = kind
      · simp [hkind]
      · simp [hkind, Binding.Fault.code]
  · intro parent kind
    rw [ht.pushScope_eq]
    simp [scope?]
  · intro scope hlt
    exact ⟨ht.outward_ancestors hlt, fun name =>
      ⟨ht.resolveId?_eq, fun s => ht.resolve_eq_some_iff, ht.resolveId?_eq_none_iff⟩⟩

/-- Two loops, one in the other, with variables of one name, and a declaration as another kind. -/
def nestedScopes : List Operation :=
  [.declare imageScope "src" .sourceImage (.point 0), .push pixelScope .loop,
    .declare 2 "i" .loopVar (.point 4), .push 2 .loop, .declare 3 "i" .loopVar (.point 8),
    .declare 2 "i" .scalar (.point 12), .push pixelScope .loop]

theorem nestedScopes_coherent :
    let t := initial.performAll nestedScopes
    initial.allFit nestedScopes ∧ Coherent t ∧
      (∀ w, initial.performAllIn w nestedScopes = some t) ∧
      t.symbols.map Symbol.name = ["src", "i", "i"] ∧ t.resolve 3 "i" = t.symbol? 2 ∧
      t.resolve 2 "i" = t.symbol? 1 ∧ t.resolve 4 "i" = none ∧ t.resolve 3 "src" = t.symbol? 0 :=
  have h := operations_keep_coherence nestedScopes (by decide)
  ⟨by decide, h.1, fun w => (h.2.1 w).mpr ⟨by decide, by decide⟩, by decide, by decide, by decide,
    by decide, by decide⟩

end RasterScript.SymbolTable
