import RasterScript.Proofs.Script.Chunks

/-! Reading a script reports no syntax fault exactly where the grammar derives its tokens, and gives
the items of the derivation. -/
namespace RasterScript.Script

open Script.Derivation

variable {A B : Groups} {ts : List Token} {dialect : Dialect}

private theorem readItem_of_derives {i : Item} (h : TopStatement A ts i) : readItem ts = .ok i := by
  have hread := h.read fun _ => (rfl : elseFollows [] = false)
  rw [List.append_nil] at hread
  rw [readItem, hread]

theorem readItem_eq_ok {i : Item} : readItem ts = .ok i ↔ TopStatement anyGroups ts i := by
  constructor
  · intro h
    unfold readItem at h
    split at h
    · next j hr =>
      cases h
      obtain ⟨pre, hpre, hi⟩ := item_sound _ _ _ hr
      rwa [hpre, List.append_nil]
    · cases h
    · cases h
  · exact readItem_of_derives

theorem readItems_eq (dialect : Dialect) (ts : List Token) :
    readItems dialect ts = (pieces dialect ts).map readItem := by
  simp [readItems, pieces]

/-- Whatever groups are allowed, a derived script is read as the items of the derivation. -/
theorem readItems_of_derives {items : List Item} (h : InDialect A dialect ts items) :
    readItems dialect ts = items.map .ok := by
  rw [inDialect_iff] at h
  rw [readItems_eq]
  generalize pieces dialect ts = cs at h
  induction h with
  | nil => rfl
  | cons hi _ ih => rw [List.map_cons, List.map_cons, readItem_of_derives hi, ih]

private theorem derives_of_readItems {items : List Item}
    (h : readItems dialect ts = items.map .ok) : InDialect anyGroups dialect ts items := by
  rw [readItems_eq] at h
  rw [inDialect_iff]
  generalize pieces dialect ts = cs at h
  induction cs generalizing items with
  | nil =>
    cases items with
    | nil => exact .nil
    | cons i items => cases h
  | cons c cs ih =>
    cases items with
    | nil => cases h
    | cons i items =>
      obtain ⟨hi, hrest⟩ := List.cons.inj h
      exact .cons (readItem_eq_ok.mp hi) (ih hrest)

/-- Where nothing is at fault, everything is read. -/
theorem eq_map_ok {read : List (Except (Located Fault) Item)} (h : read.filterMap itemFault? = []) :
    read = (read.filterMap okItem?).map .ok := by
  induction read with
  | nil => rfl
  | cons r read ih =>
    cases r with
    | error f => simp [itemFault?] at h
    | ok i =>
      have hrest := ih (by simpa [itemFault?] using h)
      simp only [List.filterMap_cons, okItem?, List.map_cons]
      rw [← hrest]

private theorem filterMap_okItem (items : List Item) :
    (items.map .ok).filterMap okItem? = items := by
  induction items with
  | nil => rfl
  | cons i items ih => simp [okItem?, ih]

private theorem filterMap_itemFault (items : List Item) :
    (items.map .ok).filterMap itemFault? = [] := by
  induction items with
  | nil => rfl
  | cons i items ih => exact ih

theorem faultless_iff : (readItems dialect ts).filterMap itemFault? = [] ↔
    ∃ items, InDialect anyGroups dialect ts items := by
  constructor
  · intro h
    exact ⟨_, derives_of_readItems (eq_map_ok h)⟩
  · rintro ⟨items, h⟩
    rw [readItems_of_derives h, filterMap_itemFault]

/-- The syntax faults of a text are those of its items. -/
theorem syntaxError_iff (text : String) (dialect : Dialect) :
    (∀ d ∈ (parse text dialect).diagnostics, d.code ≠ some "E0002") ↔
      (readItems dialect ((Token.scan text).frame dialect).tokens).filterMap itemFault? = [] := by
  simp only [parse, List.forall_mem_append, List.forall_mem_map]
  constructor
  · rintro ⟨-, h⟩
    rw [List.eq_nil_iff_forall_not_mem]
    intro f hf
    exact h f hf rfl
  · intro h
    rw [h]
    refine ⟨?_, by simp⟩
    intro f _
    simp only [Token.Fault.diagnostic, ne_eq, Option.some.injEq]
    cases f.what <;> simp [Token.Fault.code]

theorem parse_items {text : String} {items : List Item}
    (h : InDialect A dialect ((Token.scan text).frame dialect).tokens items) :
    (parse text dialect).script.items = items := by
  simp only [parse]
  rw [readItems_of_derives h, filterMap_okItem]

/-- A token list is read without a fault if and only if it is a script of the dialect; then the
items are those of the derivation, and they were cut out one by one. -/
theorem parse_accepts_grammar (dialect : Dialect) :
    (∀ ts : List Token,
      ((readItems dialect ts).filterMap itemFault? = [] ↔
        ∃ items, InDialect anyGroups dialect ts items) ∧
      ∀ items, InDialect anyGroups dialect ts items →
        (readItems dialect ts).filterMap okItem? = items ∧
          List.Forall₂ (TopStatement anyGroups) (pieces dialect ts) items) ∧
    ∀ text : String,
      ((∀ d ∈ (parse text dialect).diagnostics, d.code ≠ some "E0002") ↔
        ∃ items, InDialect anyGroups dialect ((Token.scan text).frame dialect).tokens items) ∧
      ∀ items, InDialect anyGroups dialect ((Token.scan text).frame dialect).tokens items →
        (parse text dialect).script.items = items := by
  refine ⟨fun ts => ⟨faultless_iff, ?_⟩, fun text => ⟨?_, ?_⟩⟩
  · intro items h
    rw [readItems_of_derives h, filterMap_okItem]
    exact ⟨rfl, inDialect_iff.mp h⟩
  · rw [syntaxError_iff, faultless_iff]
  · intro items h
    exact parse_items h

/-! ### Groups that are not listed -/

namespace Derivation

private theorem withSpan_eq_image {e : Expr} {id : Ident} {gs : List (Selector Expr)} {r s : Span}
    (h : e.withSpan r = .image id gs s) : ∃ r, e = .image id gs r := by
  cases e <;> cases h
  exact ⟨_, rfl⟩

mutual

/-- An image is derived only with groups that are allowed. -/
theorem Expression.allowed : ∀ {ts e}, Expression A ts e → ∀ {id gs s}, e = .image id gs s → A gs
  | _, _, .operators h, _, _, _, he => h.allowed he
  | _, _, .choice .., _, _, _, he => by cases he

theorem Operators.allowed : ∀ {n ts e}, Operators A n ts e → ∀ {id gs s},
    e = .image id gs s → A gs
  | _, _, _, .operand h, _, _, _, he => h.allowed he
  | _, _, _, .tighter _ _ h, _, _, _, he => h.allowed he
  | _, _, _, .operator .., _, _, _, he => by cases he

theorem Operand.allowed : ∀ {ts e}, Operand A ts e → ∀ {id gs s}, e = .image id gs s → A gs
  | _, _, .signed .., _, _, _, he => by cases he
  | _, _, .power .., _, _, _, he => by cases he
  | _, _, .primary h, _, _, _, he => h.allowed he

theorem Primary.allowed : ∀ {ts e}, Primary A ts e → ∀ {id gs s}, e = .image id gs s → A gs
  | _, _, .number _, _, _, _, he => by cases he
  | _, _, .name _, _, _, _, he => by cases he
  | _, _, .call .., _, _, _, he => by cases he
  | _, _, .image _ _ hg, _, _, _, he => by cases he; exact hg
  | _, _, .imageTwice _ _ _ hg, _, _, _, he => by cases he; exact hg
  | _, _, .list .., _, _, _, he => by cases he
  | _, _, .paren _ h _, _, _, _, he => by
    obtain ⟨s, he⟩ := withSpan_eq_image he
    exact h.allowed he

end

/-- The groups of an image that a statement assigns as it is. -/
def assignedGroups? : Item → Option (List (Selector Expr))
  | .stmt (.assign _ _ (.image _ groups _) _) => some groups
  | _ => none

theorem TopStatement.allowed {i : Item} {groups : List (Selector Expr)} (h : TopStatement A ts i)
    (hi : assignedGroups? i = some groups) : A groups := by
  unfold assignedGroups? at hi
  split at hi
  · cases hi
    cases h with
    | statement hs =>
      cases hs with
      | assign _ _ he _ => exact he.allowed rfl
  · cases hi

theorem InDialect.allowed {items : List Item} {groups : List (Selector Expr)}
    (h : InDialect A dialect ts items) (hg : groups ∈ items.filterMap assignedGroups?) :
    A groups := by
  rw [inDialect_iff] at h
  generalize pieces dialect ts = cs at h
  induction h with
  | nil => cases hg
  | @cons c i cs items hi _ ih =>
    rw [List.filterMap_cons] at hg
    split at hg
    · exact ih hg
    · next hi' =>
      rcases List.mem_cons.mp hg with rfl | hg
      · exact hi.allowed hi'
      · exact ih hg

end Derivation

/-- Three coordinates in one group are read, though no listed form has them. -/
theorem three_coordinates_accepted :
    (parse "dest = src[1, 2, 3];" .standard).diagnostics = [] ∧
      ¬ ∃ items, InDialect listedGroups .standard
        ((Token.scan "dest = src[1, 2, 3];").frame .standard).tokens items := by
  refine ⟨by decide +kernel, ?_⟩
  rintro ⟨items, h⟩
  have hgroups : ((parse "dest = src[1, 2, 3];" .standard).script.items.filterMap
      assignedGroups?).map (·.map (·.coords.length)) = [[3]] := by decide +kernel
  rw [parse_items h] at hgroups
  obtain ⟨groups, hg, hlengths⟩ := List.mem_map.mp (hgroups ▸ List.mem_singleton_self _)
  have hlisted := h.allowed hg
  rw [listedGroups, hlengths] at hlisted
  revert hlisted
  decide

end RasterScript.Script
