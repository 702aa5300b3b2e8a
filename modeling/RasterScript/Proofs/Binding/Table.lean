import RasterScript.Binding.Analysis

/-! Symbol tables as the walk through a script builds them: images and `init` variables in one
scope, the variables of the pixel in a second, and one loop variable in every other scope. -/
namespace RasterScript.SymbolTable

/-- The symbols of the loops around a place by name, the innermost first. -/
abbrev Loops := List (String × SymbolId)

/-- Whether a symbol belongs to no loop. -/
def isGlobal (s : Symbol) : Bool := s.scope < 2

/-- The kinds of symbol that a scope may hold. -/
def holds : ScopeId → SymbolKind → Bool
  | 0, .scalar | 0, .sourceImage | 0, .destImage => true
  | 1, .scalar | 1, .list => true
  | _ + 2, .loopVar => true
  | _, _ => false

/-- The symbol that a name belongs to in one scope. -/
def lookup (t : SymbolTable) (scope : ScopeId) (name : String) : Option Symbol :=
  (t.idOf? scope name).bind t.symbol?

/-- The counters, the numbers and the index of names are in step with the scopes and symbols. -/
structure InStep (t : SymbolTable) : Prop where
  nextScope : t.ids.nextScope = t.scopes.length
  nextSymbol : t.ids.nextSymbol = t.symbols.length
  scopeIds : ∀ {i} {s : Scope}, t.scopes[i]? = some s → s.id = i
  ids : ∀ {i} {s : Symbol}, t.symbols[i]? = some s → s.id = i
  /-- A name leads to the one symbol that has it in the scope. -/
  names : ∀ {scope name id}, t.idOf? scope name = some id ↔
    ∃ s, t.symbol? id = some s ∧ s.scope = scope ∧ s.name = name
  keys : (t.byName.map Prod.fst).Nodup

/-- The tables that a walk meets. -/
structure WellFormed (t : SymbolTable) : Prop extends InStep t where
  image : t.scopes[imageScope]? = some ⟨imageScope, .image, none⟩
  pixel : t.scopes[pixelScope]? = some ⟨pixelScope, .pixel, some imageScope⟩
  inside : ∀ s ∈ t.symbols, s.scope < t.scopes.length
  kinds : ∀ s ∈ t.symbols, holds s.scope s.kind
  /-- No variable of the pixel has the name of an image or of an `init` variable. -/
  apart : ∀ r ∈ t.symbols, ∀ s ∈ t.symbols, isGlobal r → isGlobal s → r.name = s.name → r = s

theorem inStep_initial : InStep initial where
  nextScope := rfl
  nextSymbol := rfl
  scopeIds := by
    intro i s hs
    obtain _ | _ | i := i
    · cases hs
      rfl
    · cases hs
      rfl
    · cases hs
  ids := by
    intro i s hs
    cases hs
  names := by
    intro scope name id
    constructor
    · intro hid
      cases hid
    · rintro ⟨s, hs, -⟩
      cases hs
  keys := List.nodup_nil

theorem wellFormed_initial : WellFormed initial where
  toInStep := inStep_initial
  image := rfl
  pixel := rfl
  inside := fun _ hs => absurd hs List.not_mem_nil
  kinds := fun _ hs => absurd hs List.not_mem_nil
  apart := fun _ hr => absurd hr List.not_mem_nil

/-- A later table: more scopes and symbols, but none in a loop that was there. -/
structure Extends (t u : SymbolTable) : Prop where
  scopes : t.scopes <+: u.scopes
  symbols : ∃ new, u.symbols = t.symbols ++ new ∧
    ∀ s ∈ new, isGlobal s ∨ t.scopes.length ≤ s.scope
  names : ∃ new, u.byName = new ++ t.byName ∧
    ∀ entry ∈ new, entry.1.1 < 2 ∨ t.scopes.length ≤ entry.1.1

theorem Extends.refl (t : SymbolTable) : Extends t t where
  scopes := List.prefix_refl _
  symbols := ⟨[], by simp, by simp⟩
  names := ⟨[], rfl, by simp⟩

theorem Extends.trans {t u v : SymbolTable} (h : Extends t u) (k : Extends u v) : Extends t v where
  scopes := h.scopes.trans k.scopes
  symbols := by
    obtain ⟨new, hnew, hscopes⟩ := h.symbols
    obtain ⟨more, hmore, kscopes⟩ := k.symbols
    refine ⟨new ++ more, by rw [hmore, hnew, List.append_assoc], ?_⟩
    intro s hs
    rcases List.mem_append.mp hs with hs | hs
    · exact hscopes s hs
    · exact (kscopes s hs).imp_right (Nat.le_trans h.scopes.length_le)
  names := by
    obtain ⟨new, hnew, hscopes⟩ := h.names
    obtain ⟨more, hmore, kscopes⟩ := k.names
    refine ⟨more ++ new, by rw [hmore, hnew, List.append_assoc], ?_⟩
    intro entry hentry
    rcases List.mem_append.mp hentry with hentry | hentry
    · exact (kscopes entry hentry).imp_right (Nat.le_trans h.scopes.length_le)
    · exact hscopes entry hentry

section Lookup

variable {t u : SymbolTable} {r s : Symbol} {scope : ScopeId} {name : String} {id : SymbolId}

theorem Extends.symbol? (h : Extends t u) (hs : t.symbol? id = some s) : u.symbol? id = some s := by
  obtain ⟨new, hnew, -⟩ := h.symbols
  rw [SymbolTable.symbol?, hnew, List.getElem?_append_left (List.getElem?_eq_some_iff.mp hs).1]
  exact hs

theorem Extends.mem (h : Extends t u) (hs : s ∈ t.symbols) : s ∈ u.symbols := by
  obtain ⟨new, hnew, -⟩ := h.symbols
  rw [hnew]
  exact List.mem_append_left _ hs

theorem InStep.symbol?_id (h : InStep t) (hs : s ∈ t.symbols) : t.symbol? s.id = some s := by
  obtain ⟨i, hi⟩ := List.getElem?_of_mem hs
  rw [SymbolTable.symbol?, h.ids hi, hi]

theorem InStep.eq_of_id (h : InStep t) (hr : r ∈ t.symbols) (hs : s ∈ t.symbols)
    (hid : r.id = s.id) : r = s := by
  have hsymbol := h.symbol?_id hr
  rw [hid, h.symbol?_id hs] at hsymbol
  exact (Option.some.inj hsymbol).symm

theorem InStep.idOf?_eq (h : InStep t) (hs : s ∈ t.symbols) :
    t.idOf? s.scope s.name = some s.id :=
  h.names.mpr ⟨s, h.symbol?_id hs, rfl, rfl⟩

/-- A scope has one symbol of a name. -/
theorem InStep.unique (h : InStep t) (hr : r ∈ t.symbols) (hs : s ∈ t.symbols)
    (hscope : r.scope = s.scope) (hname : r.name = s.name) : r = s := by
  have hid := h.idOf?_eq hr
  rw [hscope, hname, h.idOf?_eq hs] at hid
  exact h.eq_of_id hr hs (Option.some.inj hid).symm

theorem WellFormed.scope_of_image (h : WellFormed t) (hs : s ∈ t.symbols) {role : ImageRole}
    (hkind : s.kind = Binding.imageKind role) : s.scope = imageScope := by
  have hholds := h.kinds s hs
  rw [hkind] at hholds
  generalize s.scope = n at hholds
  obtain _ | _ | n := n
  · rfl
  · cases role <;> cases hholds
  · cases role <;> cases hholds

theorem InStep.lookup_eq (h : InStep t) (hs : s ∈ t.symbols) :
    t.lookup s.scope s.name = some s := by
  rw [lookup, h.idOf?_eq hs, Option.bind_some, h.symbol?_id hs]

theorem InStep.mem_of_lookup (h : InStep t) (hl : t.lookup scope name = some s) :
    s ∈ t.symbols ∧ s.scope = scope ∧ s.name = name := by
  obtain ⟨id, hid, hs⟩ := Option.bind_eq_some_iff.mp hl
  obtain ⟨r, hr, hscope, hname⟩ := h.names.mp hid
  obtain rfl := Option.some.inj (hs.symm.trans hr)
  exact ⟨List.mem_of_getElem? hs, hscope, hname⟩

theorem InStep.not_mem_of_lookup (h : InStep t) (hl : t.lookup scope name = none)
    (hs : s ∈ t.symbols) (hscope : s.scope = scope) : s.name ≠ name := by
  rintro rfl
  rw [← hscope, h.lookup_eq hs] at hl
  cases hl

theorem InStep.idOf?_eq_none (h : InStep t) (hl : t.lookup scope name = none) :
    t.idOf? scope name = none := by
  cases hid : t.idOf? scope name with
  | none => rfl
  | some id =>
    obtain ⟨s, hs, -⟩ := h.names.mp hid
    rw [lookup, hid, Option.bind_some, hs] at hl
    cases hl

/-- The loops that were there keep their names. -/
theorem Extends.idOf?_loop (h : Extends t u) (htwo : 2 ≤ scope) (hlt : scope < t.scopes.length) :
    u.idOf? scope name = t.idOf? scope name := by
  obtain ⟨new, hnew, hscopes⟩ := h.names
  have hnone : new.lookup (scope, name) = none := by
    rw [List.lookup_eq_none_iff]
    intro entry hentry
    rw [bne_iff_ne]
    rintro heq
    have hentry := hscopes entry hentry
    rw [← heq] at hentry
    rcases hentry with hglobal | hlater
    · exact absurd hglobal (Nat.not_lt.mpr htwo)
    · exact absurd hlt (Nat.not_lt.mpr hlater)
  rw [idOf?, hnew, List.lookup_append, hnone, Option.none_or]
  rfl

end Lookup

/-! ### Scopes -/

/-- A loop scope that holds just one variable. -/
structure LoopScope (t : SymbolTable) (scope : ScopeId) (name : String) (id : SymbolId) : Prop where
  two_le : 2 ≤ scope
  lt : scope < t.scopes.length
  symbol : ∃ s, t.symbol? id = some s ∧ s.name = name ∧ s.kind = .loopVar
  names : ∀ other, t.idOf? scope other = if other = name then some id else none

/-- A scope of the pixel, inside the given loops. -/
inductive Scoped (t : SymbolTable) : ScopeId → Loops → Prop where
  | pixel : Scoped t pixelScope []
  | loop {scope parent name id loops} : t.scopes[scope]? = some ⟨scope, .loop, some parent⟩ →
      parent < scope → LoopScope t scope name id → Scoped t parent loops →
      Scoped t scope ((name, id) :: loops)

theorem LoopScope.extend {t u : SymbolTable} {scope : ScopeId} {name : String} {id : SymbolId}
    (h : LoopScope t scope name id) (hext : Extends t u) : LoopScope u scope name id where
  two_le := h.two_le
  lt := Nat.lt_of_lt_of_le h.lt hext.scopes.length_le
  symbol := by
    obtain ⟨s, hs, hname⟩ := h.symbol
    exact ⟨s, hext.symbol? hs, hname⟩
  names := by
    intro other
    rw [hext.idOf?_loop h.two_le h.lt, h.names]

theorem Scoped.extend {t u : SymbolTable} {scope : ScopeId} {loops : Loops}
    (h : Scoped t scope loops) (hext : Extends t u) : Scoped u scope loops := by
  induction h with
  | pixel => exact .pixel
  | loop hscope hlt hloop _ ih =>
    obtain ⟨more, hmore⟩ := hext.scopes
    refine .loop ?_ hlt (hloop.extend hext) ih
    rw [← hmore, List.getElem?_append_left hloop.lt]
    exact hscope

/-- The symbol of a name outside all loops: a variable of the pixel, or one of the image scope. -/
def global? (t : SymbolTable) (name : String) : Option Symbol :=
  (t.lookup pixelScope name).or (t.lookup imageScope name)

section Resolve

variable {t : SymbolTable} {scope : ScopeId} {loops : Loops}

private theorem findSome?_chain_image (h : WellFormed t) (n : Nat) (name : String) :
    (t.chain (n + 1) imageScope).findSome? (t.idOf? · name) = t.idOf? imageScope name := by
  simp [chain, scope?, h.image]

private theorem findSome?_chain (h : WellFormed t) (hs : Scoped t scope loops) {n : Nat}
    (hn : scope < n) (name : String) :
    (t.chain n scope).findSome? (t.idOf? · name) =
      (loops.lookup name).or ((t.idOf? pixelScope name).or (t.idOf? imageScope name)) := by
  induction hs generalizing n with
  | pixel =>
    obtain ⟨n, rfl⟩ := Nat.exists_eq_add_of_lt hn
    rw [show pixelScope + n + 1 = n + 1 + 1 by simp [pixelScope, Nat.add_comm], chain, scope?,
      h.pixel]
    simp only [Option.bind_some, List.findSome?_cons, findSome?_chain_image h]
    rw [List.lookup_nil, Option.none_or]
    cases t.idOf? pixelScope name <;> rfl
  | @loop scope parent loopName id loops hscope hlt hloop _ ih =>
    obtain ⟨n, rfl⟩ := Nat.exists_eq_succ_of_ne_zero (Nat.ne_zero_of_lt hn)
    rw [chain, scope?, hscope]
    simp only [Option.bind_some, List.findSome?_cons]
    rw [hloop.names, ih (Nat.lt_of_lt_of_le hlt (Nat.le_of_lt_succ hn)), List.lookup_cons]
    by_cases hname : name = loopName
    · simp [hname]
    · simp [hname, beq_false_of_ne hname]

theorem Scoped.lt (h : WellFormed t) (hs : Scoped t scope loops) : scope < t.scopes.length := by
  cases hs with
  | pixel => exact (List.getElem?_eq_some_iff.mp h.pixel).1
  | loop hscope _ _ _ => exact (List.getElem?_eq_some_iff.mp hscope).1

/-- A name in a scope of the pixel is the variable of the innermost loop that has this name, or
else a symbol outside the loops. -/
theorem resolve_eq (h : WellFormed t) (hs : Scoped t scope loops) (name : String) :
    t.resolve scope name =
      match loops.lookup name with
      | some id => t.symbol? id
      | none => t.global? name := by
  have hchain : t.resolveId? scope name = _ :=
    findSome?_chain h hs (Nat.lt_succ_of_lt (hs.lt h)) name
  rw [resolve, hchain, global?, lookup, lookup]
  cases loops.lookup name with
  | some id => rfl
  | none =>
    rw [Option.none_or]
    cases hid : t.idOf? pixelScope name with
    | none => rfl
    | some id =>
      obtain ⟨s, hs, -⟩ := h.names.mp hid
      rw [Option.some_or, Option.bind_some, hs]
      rfl

theorem resolve_image (h : WellFormed t) (name : String) :
    t.resolve imageScope name = t.lookup imageScope name :=
  congrArg (Option.bind · t.symbol?) (findSome?_chain_image h _ name)

end Resolve

/-! ### New scopes and symbols -/

/-- The table with one more symbol. -/
def withSymbol (t : SymbolTable) (scope : ScopeId) (name : String) (kind : SymbolKind)
    (span : Span) : SymbolTable where
  ids := { t.ids with nextSymbol := t.symbols.length + 1 }
  scopes := t.scopes
  symbols := t.symbols ++ [⟨t.symbols.length, name, kind, scope, span⟩]
  byName := ((scope, name), t.symbols.length) :: t.byName

section Declare

variable {t : SymbolTable} {scope : ScopeId} {name : String} {kind : SymbolKind} {span : Span}

theorem InStep.declare_new (h : InStep t) (hnew : t.lookup scope name = none) :
    t.declare scope name kind span =
      (t.withSymbol scope name kind span, t.symbols.length, none) := by
  rw [declare, h.idOf?_eq_none hnew]
  simp only [IdAllocator.allocSymbol, h.nextSymbol]
  rfl

theorem InStep.declare_old (h : InStep t) {s : Symbol} (hold : t.lookup scope name = some s) :
    t.declare scope name kind span =
      (t, s.id, if s.kind = kind then none else some ⟨name, s.kind, kind⟩) := by
  obtain ⟨hs, rfl, rfl⟩ := h.mem_of_lookup hold
  rw [declare, h.idOf?_eq hs]
  simp only [redeclare, kind?, h.symbol?_id hs, Option.map_some, Option.filter_some]
  by_cases hkind : s.kind = kind
  · simp [hkind]
  · simp [hkind]

private theorem getElem?_withSymbol {i : Nat} :
    (t.withSymbol scope name kind span).symbols[i]? =
      if i = t.symbols.length then some ⟨t.symbols.length, name, kind, scope, span⟩
      else t.symbols[i]? := by
  rw [withSymbol, List.getElem?_append]
  by_cases hlt : i < t.symbols.length
  · rw [if_pos hlt, if_neg (Nat.ne_of_lt hlt)]
  · rw [if_neg hlt, List.getElem?_singleton, List.getElem?_eq_none (Nat.not_lt.mp hlt)]
    by_cases hi : i = t.symbols.length
    · rw [if_pos hi, if_pos (by rw [hi, Nat.sub_self])]
    · rw [if_neg hi, if_neg]
      intro hsub
      exact hi (Nat.le_antisymm (Nat.le_of_sub_eq_zero hsub) (Nat.not_lt.mp hlt))

private theorem idOf?_withSymbol {around : ScopeId} {other : String} :
    (t.withSymbol scope name kind span).idOf? around other =
      if (around, other) = (scope, name) then some t.symbols.length else t.idOf? around other := by
  rw [idOf?, withSymbol, List.lookup_cons]
  split
  · next h => rw [if_pos (eq_of_beq h)]
  · next h => rw [if_neg (ne_of_beq_false h), idOf?]

/-- A new name leads to the new symbol, and every other name to where it led before. -/
theorem InStep.withSymbol (h : InStep t) (hnew : t.lookup scope name = none) :
    InStep (t.withSymbol scope name kind span) where
  nextScope := h.nextScope
  nextSymbol := by rw [SymbolTable.withSymbol, List.length_append, List.length_singleton]
  scopeIds := h.scopeIds
  ids := by
    intro i s hs
    rw [getElem?_withSymbol] at hs
    split at hs
    · next hi =>
      obtain rfl := Option.some.inj hs
      exact hi.symm
    · exact h.ids hs
  names := by
    intro around other id
    have hnone := h.idOf?_eq_none hnew
    rw [idOf?_withSymbol, SymbolTable.symbol?, getElem?_withSymbol]
    by_cases hid : id = t.symbols.length
    · rw [if_pos hid]
      constructor
      · intro hfound
        split at hfound
        · next hkey =>
          obtain ⟨rfl, rfl⟩ := Prod.mk.inj hkey
          exact ⟨_, rfl, rfl, rfl⟩
        · obtain ⟨s, hs, -⟩ := h.names.mp hfound
          rw [hid, SymbolTable.symbol?, List.getElem?_eq_none (Nat.le_refl _)] at hs
          cases hs
      · rintro ⟨s, ⟨⟩, rfl, rfl⟩
        rw [if_pos rfl, hid]
    · rw [if_neg hid]
      constructor
      · intro hfound
        split at hfound
        · exact absurd (Option.some.inj hfound).symm hid
        · exact h.names.mp hfound
      · intro hs
        have hold := h.names.mpr hs
        rw [if_neg, hold]
        intro hkey
        obtain ⟨rfl, rfl⟩ := Prod.mk.inj hkey
        rw [hnone] at hold
        cases hold
  keys := by
    refine List.nodup_cons.mpr ⟨fun hkey => ?_, h.keys⟩
    obtain ⟨entry, hentry, hkey⟩ := List.mem_map.mp hkey
    have hother := List.lookup_eq_none_iff.mp (h.idOf?_eq_none hnew) entry hentry
    exact absurd hkey.symm (bne_iff_ne.mp hother)

theorem WellFormed.withSymbol (h : WellFormed t) (hlt : scope < t.scopes.length)
    (hkind : holds scope kind) (hnew : t.lookup scope name = none)
    (hapart : scope < 2 → ∀ s ∈ t.symbols, isGlobal s → s.name ≠ name) :
    WellFormed (t.withSymbol scope name kind span) where
  toInStep := h.toInStep.withSymbol hnew
  image := h.image
  pixel := h.pixel
  inside := by
    intro s hs
    rcases List.mem_append.mp hs with hs | hs
    · exact h.inside s hs
    · rw [List.mem_singleton.mp hs]
      exact hlt
  kinds := by
    intro s hs
    rcases List.mem_append.mp hs with hs | hs
    · exact h.kinds s hs
    · rw [List.mem_singleton.mp hs]
      exact hkind
  apart := by
    intro r hr s hs hrg hsg hname
    rcases List.mem_append.mp hr with hr | hr <;> rcases List.mem_append.mp hs with hs | hs
    · exact h.apart r hr s hs hrg hsg hname
    · rw [List.mem_singleton.mp hs] at hsg hname
      exact absurd hname (hapart (by simpa [isGlobal] using hsg) r hr hrg)
    · rw [List.mem_singleton.mp hr] at hrg hname
      exact absurd hname.symm (hapart (by simpa [isGlobal] using hrg) s hs hsg)
    · rw [List.mem_singleton.mp hr, List.mem_singleton.mp hs]

theorem extends_withSymbol (h : scope < 2) : Extends t (t.withSymbol scope name kind span) where
  scopes := List.prefix_refl _
  symbols := by
    refine ⟨_, rfl, fun s hs => .inl ?_⟩
    rw [List.mem_singleton.mp hs]
    exact decide_eq_true h
  names := by
    refine ⟨[_], rfl, fun entry hentry => .inl ?_⟩
    rw [List.mem_singleton.mp hentry]
    exact h

theorem symbol?_withSymbol :
    (t.withSymbol scope name kind span).symbol? t.symbols.length =
      some ⟨t.symbols.length, name, kind, scope, span⟩ := by
  simp [SymbolTable.symbol?, withSymbol]

/-- The table with a new loop scope that holds one variable. -/
def withLoop (t : SymbolTable) (parent : ScopeId) (name : String) (span : Span) : SymbolTable :=
  (t.pushScope parent .loop).1.withSymbol t.scopes.length name .loopVar span

theorem InStep.pushScope_eq (h : InStep t) (parent : ScopeId) (kind : ScopeKind) :
    t.pushScope parent kind =
      ({ t with
          ids := { t.ids with nextScope := t.scopes.length + 1 }
          scopes := t.scopes ++ [⟨t.scopes.length, kind, some parent⟩] }, t.scopes.length) := by
  simp only [SymbolTable.pushScope, SymbolTable.addScope, IdAllocator.allocScope, h.nextScope]

theorem InStep.pushScope (h : InStep t) (parent : ScopeId) (kind : ScopeKind) :
    InStep (t.pushScope parent kind).1 := by
  rw [h.pushScope_eq]
  refine ⟨by simp, h.nextSymbol, ?_, h.ids, h.names, h.keys⟩
  intro i s hs
  rw [List.getElem?_append] at hs
  split at hs
  · exact h.scopeIds hs
  · next hi =>
    obtain ⟨hlt, rfl⟩ := List.getElem?_eq_some_iff.mp hs
    simp only [List.getElem_singleton]
    exact Nat.le_antisymm (Nat.not_lt.mp hi) (Nat.le_of_sub_eq_zero (Nat.lt_one_iff.mp hlt))

theorem WellFormed.lookup_new (h : WellFormed t) (parent : ScopeId) (name : String) :
    (t.pushScope parent .loop).1.lookup t.scopes.length name = none := by
  rw [Option.eq_none_iff_forall_ne_some]
  intro s hs
  obtain ⟨hs, hscope, -⟩ := (h.toInStep.pushScope parent .loop).mem_of_lookup hs
  have hlt : s.scope < t.scopes.length := h.inside s hs
  exact absurd hlt (by rw [hscope]; exact Nat.lt_irrefl _)

theorem WellFormed.two_le (h : WellFormed t) : 2 ≤ t.scopes.length :=
  (List.getElem?_eq_some_iff.mp h.pixel).1

theorem WellFormed.pushScope (h : WellFormed t) (parent : ScopeId) :
    WellFormed (t.pushScope parent .loop).1 where
  toInStep := h.toInStep.pushScope parent .loop
  image := by
    simp only [SymbolTable.pushScope, SymbolTable.addScope]
    rw [List.getElem?_append_left (List.getElem?_eq_some_iff.mp h.image).1, h.image]
  pixel := by
    simp only [SymbolTable.pushScope, SymbolTable.addScope]
    rw [List.getElem?_append_left (List.getElem?_eq_some_iff.mp h.pixel).1, h.pixel]
  inside := by
    intro s hs
    simp only [SymbolTable.pushScope, SymbolTable.addScope, List.length_append]
    exact Nat.lt_add_right _ (h.inside s hs)
  kinds := h.kinds
  apart := h.apart

theorem WellFormed.withLoop (h : WellFormed t) (parent : ScopeId) :
    WellFormed (t.withLoop parent name span) := by
  have htwo := h.two_le
  refine (h.pushScope parent).withSymbol ?_ ?_ (h.lookup_new parent name) ?_
  · simp [SymbolTable.pushScope, SymbolTable.addScope]
  · obtain ⟨n, hn⟩ := Nat.exists_eq_add_of_le htwo
    rw [hn, Nat.add_comm]
    rfl
  · intro hlt
    exact absurd hlt (Nat.not_lt.mpr htwo)

theorem extends_withLoop (parent : ScopeId) : Extends t (t.withLoop parent name span) where
  scopes := List.prefix_append _ _
  symbols := ⟨_, rfl, by simp⟩
  names := ⟨[_], rfl, by simp⟩

/-- The new scope lies inside its parent. -/
theorem Scoped.withLoop {parent : ScopeId} {loops : Loops} (h : WellFormed t)
    (hs : Scoped t parent loops) :
    Scoped (t.withLoop parent name span) t.scopes.length ((name, t.symbols.length) :: loops) := by
  have hnames : ∀ other, (t.withLoop parent name span).idOf? t.scopes.length other =
      if other = name then some t.symbols.length else none := by
    intro other
    rw [SymbolTable.withLoop, idOf?_withSymbol,
      (h.pushScope parent).idOf?_eq_none (h.lookup_new parent other)]
    simp [SymbolTable.pushScope, SymbolTable.addScope]
  refine .loop ?_ (hs.lt h) ⟨h.two_le, ?_, ?_, hnames⟩ (hs.extend (extends_withLoop parent))
  · simp [SymbolTable.withLoop, SymbolTable.withSymbol, h.pushScope_eq]
  · simp [SymbolTable.withLoop, SymbolTable.withSymbol, SymbolTable.pushScope,
      SymbolTable.addScope]
  · exact ⟨_, symbol?_withSymbol, rfl, rfl⟩

theorem InStep.mem_of_global? (h : InStep t) {s : Symbol} (hs : t.global? name = some s) :
    s ∈ t.symbols ∧ isGlobal s ∧ s.name = name := by
  have hlookup {scope : ScopeId} (hlt : scope < 2) (hs : t.lookup scope name = some s) :
      s ∈ t.symbols ∧ isGlobal s ∧ s.name = name := by
    obtain ⟨hmem, rfl, hname⟩ := h.mem_of_lookup hs
    exact ⟨hmem, by simpa [isGlobal] using hlt, hname⟩
  rw [global?, Option.or_eq_some_iff] at hs
  rcases hs with hs | ⟨-, hs⟩
  · exact hlookup (by decide) hs
  · exact hlookup (by decide) hs

theorem InStep.not_mem_of_global? (h : InStep t) (hnone : t.global? name = none) {s : Symbol}
    (hs : s ∈ t.symbols) (hglobal : isGlobal s) : s.name ≠ name := by
  rw [global?, Option.or_eq_none_iff] at hnone
  simp only [isGlobal, decide_eq_true_eq] at hglobal
  have hscope : s.scope = imageScope ∨ s.scope = pixelScope := by
    rcases Nat.lt_succ_iff_lt_or_eq.mp hglobal with hlt | heq
    · exact .inl (Nat.lt_one_iff.mp hlt)
    · exact .inr heq
  rcases hscope with hscope | hscope
  · exact h.not_mem_of_lookup hnone.2 hs hscope
  · exact h.not_mem_of_lookup hnone.1 hs hscope

end Declare

end RasterScript.SymbolTable
