import Mathlib.Data.List.Forall2
import RasterScript.Code.Lowering
import RasterScript.Proofs.Binding.Scripts
import RasterScript.Proofs.Code.Layout

/-! The slots that a lowering gives out: each symbol has at most one, and no two symbols share
one. -/
namespace RasterScript.Code

open Direct (Declared Role)
open SymbolTable (Loops isGlobal WellFormed imageScope pixelScope)

/-! ### Slots of symbols -/

/-- The slot of a scalar symbol. -/
inductive SlotOf (s : Slots) (y : Symbol) : Slot → Prop where
  | image {i} : y.kind = .scalar → y.scope = imageScope → s.imageNames[i]? = some y.name →
      SlotOf s y (.image i)
  | pixel {i} : y.kind = .scalar → y.scope = pixelScope → i < s.pixelNames.length →
      SlotOf s y (.pixel i)
  | loop {i} : y.kind = .loopVar → i < s.pixelNames.length → SlotOf s y (.pixel i)

namespace Slots

/-- What slots that were given out so far have in common. -/
structure Ok (b : Binding) (s : Slots) : Prop where
  scalars : ∀ {id slot}, s.scalars.lookup id = some slot →
    ∃ y, b.table.symbol? id = some y ∧ SlotOf s y slot
  separate : ∀ {id id' slot}, s.scalars.lookup id = some slot →
    s.scalars.lookup id' = some slot → id = id'
  lists : ∀ {id i}, s.lists.lookup id = some i →
    ∃ y, b.table.symbol? id = some y ∧ y.kind = .list ∧ s.listNames[i]? = some y.name
  image : ∀ {n}, n ∈ s.imageNames → ∃ y ∈ b.table.symbols, y.name = n ∧ y.kind = .scalar ∧
    y.scope = imageScope ∧ (s.scalars.lookup y.id).isSome
  list : ∀ {n}, n ∈ s.listNames → ∃ y ∈ b.table.symbols, y.name = n ∧ y.kind = .list ∧
    (s.lists.lookup y.id).isSome
  imageNames : s.imageNames.Nodup
  listNames : s.listNames.Nodup

theorem ok_empty (b : Binding) : Slots.empty.Ok b where
  scalars h := nomatch h
  separate h := nomatch h
  lists h := nomatch h
  image h := nomatch h
  list h := nomatch h
  imageNames := List.nodup_nil
  listNames := List.nodup_nil

/-- Slots that were given out stay as they are. -/
structure Le (s t : Slots) : Prop where
  scalars : ∀ {id slot}, s.scalars.lookup id = some slot → t.scalars.lookup id = some slot
  lists : ∀ {id i}, s.lists.lookup id = some i → t.lists.lookup id = some i
  imageNames : s.imageNames <+: t.imageNames
  pixelNames : s.pixelNames <+: t.pixelNames
  listNames : s.listNames <+: t.listNames

theorem Le.refl (s : Slots) : s.Le s :=
  ⟨id, id, List.prefix_refl _, List.prefix_refl _, List.prefix_refl _⟩

theorem Le.trans {s t u : Slots} (h : s.Le t) (k : t.Le u) : s.Le u where
  scalars hs := k.scalars (h.scalars hs)
  lists hs := k.lists (h.lists hs)
  imageNames := h.imageNames.trans k.imageNames
  pixelNames := h.pixelNames.trans k.pixelNames
  listNames := h.listNames.trans k.listNames

theorem getElem?_of_isPrefix {α : Type} {l m : List α} {i : Nat} {a : α} (h : l <+: m)
    (hi : l[i]? = some a) : m[i]? = some a := by
  obtain ⟨more, rfl⟩ := h
  rw [List.getElem?_append_left (List.getElem?_eq_some_iff.mp hi).1, hi]

end Slots

theorem SlotOf.extend {s t : Slots} (h : s.Le t) {y : Symbol} {slot : Slot}
    (hs : SlotOf s y slot) : SlotOf t y slot := by
  cases hs with
  | image hkind hscope hname => exact .image hkind hscope (Slots.getElem?_of_isPrefix h.imageNames hname)
  | pixel hkind hscope hlt => exact .pixel hkind hscope (Nat.lt_of_lt_of_le hlt h.pixelNames.length_le)
  | loop hkind hlt => exact .loop hkind (Nat.lt_of_lt_of_le hlt h.pixelNames.length_le)

namespace Slots

/-! ### New slots -/

section New

variable {b : Binding} {s : Slots} {y : Symbol}

/-- The slots with one more in the image scope. -/
def withImage (s : Slots) (y : Symbol) : Slots :=
  { s with
    scalars := (y.id, .image s.imageNames.length) :: s.scalars
    imageNames := s.imageNames ++ [y.name] }

def withPixel (s : Slots) (y : Symbol) : Slots :=
  { s with
    scalars := (y.id, .pixel s.pixelNames.length) :: s.scalars
    pixelNames := s.pixelNames ++ [y.name] }

def withList (s : Slots) (y : Symbol) : Slots :=
  { s with lists := (y.id, s.listNames.length) :: s.lists, listNames := s.listNames ++ [y.name] }

private theorem lookup_cons_of_ne {α : Type} {id other : SymbolId} {a : α} {l : List (SymbolId × α)}
    (h : other ≠ id) : ((id, a) :: l).lookup other = l.lookup other := by
  rw [List.lookup_cons, beq_false_of_ne h]

private theorem lookup_cons_keeps {α : Type} {id other : SymbolId} {a c : α}
    {l : List (SymbolId × α)} (hnew : l.lookup id = none) (h : l.lookup other = some c) :
    ((id, a) :: l).lookup other = some c := by
  have hne : other ≠ id := by
    rintro rfl
    rw [hnew] at h
    cases h
  rw [lookup_cons_of_ne hne, h]

theorem le_withImage (hnew : s.scalars.lookup y.id = none) : s.Le (s.withImage y) :=
  ⟨lookup_cons_keeps hnew, id, List.prefix_append _ _, List.prefix_refl _, List.prefix_refl _⟩

theorem le_withPixel (hnew : s.scalars.lookup y.id = none) : s.Le (s.withPixel y) :=
  ⟨lookup_cons_keeps hnew, id, List.prefix_refl _, List.prefix_append _ _, List.prefix_refl _⟩

theorem le_withList (hnew : s.lists.lookup y.id = none) : s.Le (s.withList y) :=
  ⟨id, lookup_cons_keeps hnew, List.prefix_refl _, List.prefix_refl _, List.prefix_append _ _⟩

private theorem lookup_cons_cases {α : Type} {id other : SymbolId} {a c : α}
    {l : List (SymbolId × α)} (h : ((id, a) :: l).lookup other = some c) :
    (other = id ∧ c = a) ∨ l.lookup other = some c := by
  by_cases hne : other = id
  · subst hne
    simp only [List.lookup_cons_self, Option.some.injEq] at h
    exact .inl ⟨rfl, h.symm⟩
  · rw [lookup_cons_of_ne hne] at h
    exact .inr h

/-- A slot that nobody has keeps slots separate. -/
theorem separate_cons {id : SymbolId} {slot : Slot} {l : List (SymbolId × Slot)}
    (hl : ∀ {i j c}, l.lookup i = some c → l.lookup j = some c → i = j)
    (hunused : ∀ i, l.lookup i ≠ some slot) {i j : SymbolId} {c : Slot}
    (hi : ((id, slot) :: l).lookup i = some c) (hj : ((id, slot) :: l).lookup j = some c) :
    i = j := by
  rcases lookup_cons_cases hi with ⟨rfl, rfl⟩ | hold <;>
    rcases lookup_cons_cases hj with ⟨rfl, hc⟩ | hother
  · rfl
  · exact absurd hother (hunused j)
  · exact absurd (hc ▸ hold) (hunused i)
  · exact hl hold hother

private theorem nodup_snoc {l : List String} {n : String} (h : l.Nodup) (hn : n ∉ l) :
    (l ++ [n]).Nodup := by
  refine List.nodup_append.mpr ⟨h, by simp, fun m hm k hk => ?_⟩
  rw [List.mem_singleton.mp hk]
  rintro rfl
  exact hn hm

variable (ok : s.Ok b) (wf : WellFormed b.table) (hy : y ∈ b.table.symbols)

include ok

theorem Ok.image_unused (id : SymbolId) : s.scalars.lookup id ≠ some (.image s.imageNames.length) := by
  intro h
  obtain ⟨_, -, hslot⟩ := ok.scalars h
  cases hslot with
  | image _ _ hname => exact absurd (List.getElem?_eq_some_iff.mp hname).1 (Nat.lt_irrefl _)

theorem Ok.pixel_unused (id : SymbolId) : s.scalars.lookup id ≠ some (.pixel s.pixelNames.length) := by
  intro h
  obtain ⟨_, -, hslot⟩ := ok.scalars h
  cases hslot with
  | pixel _ _ hlt | loop _ hlt => exact absurd hlt (Nat.lt_irrefl _)

include wf hy

theorem Ok.withImage (hkind : y.kind = .scalar) (hscope : y.scope = imageScope)
    (hnew : s.scalars.lookup y.id = none) : (s.withImage y).Ok b := by
  have hle := le_withImage hnew
  have hname : y.name ∉ s.imageNames := by
    intro hmem
    obtain ⟨r, hr, hrname, -, hrscope, hsome⟩ := ok.image hmem
    rw [wf.unique hr hy (hrscope.trans hscope.symm) hrname, hnew] at hsome
    cases hsome
  refine ⟨?_, separate_cons ok.separate ok.image_unused, ok.lists, ?_, ok.list, ?_, ok.listNames⟩
  · intro id slot h
    rcases lookup_cons_cases h with ⟨rfl, rfl⟩ | h
    · exact ⟨y, wf.symbol?_id hy, .image hkind hscope (by simp [Slots.withImage])⟩
    · obtain ⟨r, hr, hslot⟩ := ok.scalars h
      exact ⟨r, hr, hslot.extend hle⟩
  · intro n hn
    rcases List.mem_append.mp hn with hn | hn
    · obtain ⟨r, hr, hrname, hrkind, hrscope, hsome⟩ := ok.image hn
      obtain ⟨slot, hslot⟩ := Option.isSome_iff_exists.mp hsome
      exact ⟨r, hr, hrname, hrkind, hrscope, by rw [hle.scalars hslot]; rfl⟩
    · refine ⟨y, hy, (List.mem_singleton.mp hn).symm, hkind, hscope, ?_⟩
      simp [Slots.withImage]
  · exact nodup_snoc ok.imageNames hname

theorem Ok.withPixel (hkind : y.kind = .scalar ∧ y.scope = pixelScope ∨ y.kind = .loopVar)
    (hnew : s.scalars.lookup y.id = none) : (s.withPixel y).Ok b := by
  have hle := le_withPixel hnew
  have hlt : s.pixelNames.length < (s.withPixel y).pixelNames.length := by simp [Slots.withPixel]
  refine ⟨?_, separate_cons ok.separate ok.pixel_unused, ok.lists, ?_, ok.list, ok.imageNames,
    ok.listNames⟩
  · intro id slot h
    rcases lookup_cons_cases h with ⟨rfl, rfl⟩ | h
    · refine ⟨y, wf.symbol?_id hy, ?_⟩
      rcases hkind with ⟨hkind, hscope⟩ | hkind
      · exact .pixel hkind hscope hlt
      · exact .loop hkind hlt
    · obtain ⟨r, hr, hslot⟩ := ok.scalars h
      exact ⟨r, hr, hslot.extend hle⟩
  · intro n hn
    obtain ⟨r, hr, hrname, hrkind, hrscope, hsome⟩ := ok.image hn
    obtain ⟨slot, hslot⟩ := Option.isSome_iff_exists.mp hsome
    exact ⟨r, hr, hrname, hrkind, hrscope, by rw [hle.scalars hslot]; rfl⟩

theorem Ok.withList (hkind : y.kind = .list) (hnew : s.lists.lookup y.id = none) :
    (s.withList y).Ok b := by
  have hle := le_withList hnew
  have hscope {r : Symbol} (hr : r ∈ b.table.symbols) (hk : r.kind = .list) :
      r.scope = pixelScope := by
    have hholds := wf.kinds r hr
    rw [hk] at hholds
    generalize r.scope = n at hholds
    match n with
    | 1 => rfl
  have hname : y.name ∉ s.listNames := by
    intro hmem
    obtain ⟨r, hr, hrname, hrkind, hsome⟩ := ok.list hmem
    rw [wf.unique hr hy ((hscope hr hrkind).trans (hscope hy hkind).symm) hrname, hnew] at hsome
    cases hsome
  refine ⟨?_, ok.separate, ?_, ok.image, ?_, ok.imageNames, nodup_snoc ok.listNames hname⟩
  · intro id slot h
    obtain ⟨r, hr, hslot⟩ := ok.scalars h
    exact ⟨r, hr, hslot.extend hle⟩
  · intro id i h
    rcases lookup_cons_cases h with ⟨rfl, rfl⟩ | h
    · exact ⟨y, wf.symbol?_id hy, hkind, by simp [Slots.withList]⟩
    · obtain ⟨r, hr, hrkind, hrname⟩ := ok.lists h
      exact ⟨r, hr, hrkind, getElem?_of_isPrefix hle.listNames hrname⟩
  · intro n hn
    rcases List.mem_append.mp hn with hn | hn
    · obtain ⟨r, hr, hrname, hrkind, hsome⟩ := ok.list hn
      obtain ⟨i, hi⟩ := Option.isSome_iff_exists.mp hsome
      exact ⟨r, hr, hrname, hrkind, by rw [hle.lists hi]; rfl⟩
    · exact ⟨y, hy, (List.mem_singleton.mp hn).symm, hkind, by simp [Slots.withList]⟩

end New

/-! ### Layouts -/

/-- Where the variables of a script are kept. -/
def layout (b : Binding) (s : Slots) : Layout where
  image := s.imageNames
  lists := s.listNames
  pixel n := (b.table.lookup pixelScope n).bind fun y =>
    match s.scalars.lookup y.id with
    | some (.pixel i) => some i
    | _ => none
  count := s.pixelNames.length

section Layout

variable {b : Binding} {s : Slots} {y : Symbol}

private theorem pixel_layout {n : String} {i : Nat} (h : (s.layout b).pixel n = some i) :
    ∃ y, b.table.lookup pixelScope n = some y ∧ s.scalars.lookup y.id = some (.pixel i) := by
  obtain ⟨y, hy, hslot⟩ := Option.bind_eq_some_iff.mp h
  refine ⟨y, hy, ?_⟩
  split at hslot
  · next hl => rw [hl, Option.some.inj hslot]
  · cases hslot

theorem Ok.separate_layout (ok : s.Ok b) (wf : WellFormed b.table) : (s.layout b).Separate where
  image := ok.imageNames
  lists := ok.listNames
  pixel := by
    intro m n i hm hn
    obtain ⟨y, hy, hyslot⟩ := pixel_layout hm
    obtain ⟨r, hr, hrslot⟩ := pixel_layout hn
    obtain ⟨hymem, -, rfl⟩ := wf.mem_of_lookup hy
    obtain ⟨hrmem, -, rfl⟩ := wf.mem_of_lookup hr
    rw [wf.eq_of_id hymem hrmem (ok.separate hyslot hrslot)]
  bound := by
    intro n i hn
    obtain ⟨y, -, hslot⟩ := pixel_layout hn
    obtain ⟨_, -, hslot⟩ := ok.scalars hslot
    cases hslot with
    | pixel _ _ hlt | loop _ hlt => exact hlt

/-- A declared scalar is where the layout says. -/
theorem variableAt (wf : WellFormed b.table) (hy : y ∈ b.table.symbols) {slot : Slot}
    (hkind : y.kind = .scalar) (hslot : SlotOf s y slot) (hl : s.scalars.lookup y.id = some slot) :
    VariableAt b.table.declared (s.layout b) y.name slot := by
  cases hslot with
  | image _ hscope hname =>
    refine .image ?_ hname
    rw [SymbolTable.lookup_declared_of_mem wf hy (by simp [isGlobal, hscope, imageScope])]
    simp [SymbolTable.role, hkind, hscope]
  | pixel _ hscope _ =>
    refine .pixel ?_ ?_
    · rw [SymbolTable.lookup_declared_of_mem wf hy (by simp [isGlobal, hscope, pixelScope])]
      simp [SymbolTable.role, hkind, hscope, imageScope, pixelScope]
    · show (b.table.lookup pixelScope y.name).bind _ = _
      rw [← hscope, wf.lookup_eq hy, Option.bind_some, hl]
  | loop hloop => rw [hkind] at hloop; cases hloop

theorem listAt (wf : WellFormed b.table) (hy : y ∈ b.table.symbols) (hglobal : isGlobal y)
    (hkind : y.kind = .list) {i : Nat} (hname : s.listNames[i]? = some y.name) :
    ListAt b.table.declared (s.layout b) y.name i where
  declared := by
    rw [SymbolTable.lookup_declared_of_mem wf hy hglobal]
    simp [SymbolTable.role, hkind]
  index := hname

/-- The slot of a loop variable is no one else's. -/
theorem Ok.fresh (ok : s.Ok b) (wf : WellFormed b.table) {id : SymbolId} {i : Nat}
    (hy : b.table.symbol? id = some y) (hkind : y.kind = .loopVar)
    (hl : s.scalars.lookup id = some (.pixel i)) {ls : LoopSlots}
    (hls : ∀ p ∈ ls, ∃ other, other ≠ id ∧ s.scalars.lookup other = some (.pixel p.2)) :
    Fresh (s.layout b) ls i where
  lt := by
    obtain ⟨_, -, hslot⟩ := ok.scalars hl
    cases hslot with
    | pixel _ _ hlt | loop _ hlt => exact hlt
  pixel := by
    intro n hn
    obtain ⟨r, hr, hslot⟩ := pixel_layout hn
    obtain ⟨hmem, hscope, -⟩ := wf.mem_of_lookup hr
    have hid := wf.symbol?_id hmem
    rw [ok.separate hslot hl, hy] at hid
    obtain rfl := Option.some.inj hid
    have hglobal : isGlobal y := by simp [isGlobal, hscope, pixelScope]
    exact Binding.not_loopVar_of_global wf hmem hglobal hkind
  loops := by
    intro p hp heq
    obtain ⟨other, hne, hother⟩ := hls p hp
    rw [heq] at hother
    exact hne (ok.separate hother hl)

end Layout

/-! ### Images -/

section Images

variable {b : Binding} {y : Symbol} {t : SymbolTable}

private theorem role_eq_iff (wf : WellFormed t) (hy : y ∈ t.symbols) (r : ImageRole) :
    (isGlobal y = true ∧ SymbolTable.role y = Declared.roleOf r) ↔ y.kind = Binding.imageKind r := by
  constructor
  · rintro ⟨-, hrole⟩
    unfold SymbolTable.role at hrole
    cases r <;> cases hkind : y.kind <;> simp_all [Declared.roleOf, Binding.imageKind] <;>
      split at hrole <;> cases hrole
  · intro hkind
    refine ⟨by simp [isGlobal, wf.scope_of_image hy hkind, imageScope], ?_⟩
    cases r <;> simp [SymbolTable.role, hkind, Binding.imageKind, Declared.roleOf]

theorem names_images (wf : WellFormed t) (r : ImageRole) :
    t.declared.names (Declared.roleOf r) = (t.ofKind (Binding.imageKind r)).map Symbol.name := by
  rw [Declared.names, SymbolTable.declared, List.filter_map, List.map_map, List.filter_filter,
    SymbolTable.ofKind]
  congr 1
  refine List.filter_congr fun y hy => ?_
  have := role_eq_iff wf hy r
  grind

private theorem findIdx?_congr {α : Type} {p q : α → Bool} {l : List α} (h : ∀ a ∈ l, p a = q a) :
    l.findIdx? p = l.findIdx? q := by
  induction l with
  | nil => rfl
  | cons a l ih =>
    rw [List.findIdx?_cons, List.findIdx?_cons, h a List.mem_cons_self,
      ih fun c hc => h c (List.mem_cons_of_mem a hc)]

/-- The number of an image is that of its name. -/
theorem imageAt (wf : WellFormed b.table) (r : ImageRole) (hy : y ∈ b.table.symbols)
    (hkind : y.kind = Binding.imageKind r) :
    ∃ i, Lower.imageIndex? b (Binding.imageKind r) y.id = some i ∧
      ImageAt b.table.declared (Declared.roleOf r) y.name i := by
  have hof : y ∈ b.table.ofKind (Binding.imageKind r) :=
    List.mem_filter.mpr ⟨hy, by simpa using hkind⟩
  obtain ⟨hglobal, hrole⟩ := (role_eq_iff wf hy r).mpr hkind
  have hindex : (b.table.declared.names (Declared.roleOf r)).findIdx? (· = y.name) =
      Lower.imageIndex? b (Binding.imageKind r) y.id := by
    rw [names_images wf, List.findIdx?_map, Lower.imageIndex?]
    refine findIdx?_congr fun s hs => ?_
    obtain ⟨hs, hskind⟩ := List.mem_filter.mp hs
    have hsglobal := ((role_eq_iff wf hs r).mpr (by simpa using hskind)).1
    have hiff : s.name = y.name ↔ s.id = y.id := by
      constructor
      · intro hname
        rw [wf.apart s hs y hy hsglobal hglobal hname]
      · intro hid
        rw [wf.eq_of_id hs hy hid]
    simp [hiff]
  cases hi : Lower.imageIndex? b (Binding.imageKind r) y.id with
  | none =>
    have := List.findIdx?_eq_none_iff.mp hi y hof
    simp at this
  | some i =>
    refine ⟨i, rfl, ?_, hindex.trans hi⟩
    rw [SymbolTable.lookup_declared_of_mem wf hy hglobal, hrole]

theorem imageIndex?_eq_none (wf : WellFormed b.table) (hy : y ∈ b.table.symbols)
    {kind : SymbolKind} (hkind : y.kind ≠ kind) : Lower.imageIndex? b kind y.id = none := by
  refine List.findIdx?_eq_none_iff.mpr fun s hs => ?_
  obtain ⟨hs, hskind⟩ := List.mem_filter.mp hs
  simp only [decide_eq_true_eq] at hskind
  simp only [decide_eq_false_iff_not]
  intro hid
  rw [wf.eq_of_id hs hy hid] at hskind
  exact hkind hskind

end Images

end Slots

end RasterScript.Code
