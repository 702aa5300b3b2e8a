import Mathlib.Data.List.Basic
import RasterScript.Compilation

/-! Items of a script are taken in three turns: images and options, then `init` blocks, then
statements. So where an item stands among those of other turns makes no difference. -/
namespace RasterScript

/-- When the items of a script are taken. -/
inductive Turn where
  | declaration
  | initialisation
  | statement
deriving DecidableEq, Repr

def Item.turn : Item → Turn
  | .images _ _ | .options _ _ => .declaration
  | .init _ _ => .initialisation
  | .stmt _ => .statement

/-- The items of a turn, in their order. -/
def ofTurn (t : Turn) (items : List Item) : List Item := items.filter fun i => i.turn = t

/-- Whether the items of every turn stand in the same order. -/
def Rearranged (items items' : List Item) : Prop := ∀ t, ofTurn t items = ofTurn t items'

private theorem ofTurn_cons (t : Turn) (i : Item) (items : List Item) :
    ofTurn t (i :: items) = if i.turn = t then i :: ofTurn t items else ofTurn t items := by
  simp only [ofTurn, List.filter_cons, decide_eq_true_eq]

/-! ### Passes over the items -/

/-- What the walk through a script does in a turn. -/
def Turn.pass : Turn → Item → Binding.Walk Unit
  | .declaration => Binding.declarations
  | .initialisation => Binding.initialisation
  | .statement => Binding.statement

theorem Turn.pass_eq_pure {t : Turn} {i : Item} (h : i.turn ≠ t) : t.pass i = pure () := by
  cases i with
  | images _ span | options _ span =>
    cases t with
    | declaration => exact absurd rfl h
    | _ => rfl
  | init values span =>
    cases t with
    | initialisation => exact absurd rfl h
    | _ => rfl
  | stmt s =>
    cases t with
    | statement => exact absurd rfl h
    | _ => rfl

private theorem forM_pass (t : Turn) (items : List Item) :
    items.forM t.pass = (ofTurn t items).forM t.pass := by
  induction items with
  | nil => rfl
  | cons i items ih =>
    rw [ofTurn_cons]
    show (do t.pass i; items.forM t.pass) = _
    split
    · rw [ih]
      rfl
    · next hturn => rw [Turn.pass_eq_pure hturn, pure_bind, ih]

private theorem init_ofTurn (b : Binding) (items : List Item) :
    Code.Lower.init b items = Code.Lower.init b (ofTurn .initialisation items) := by
  induction items with
  | nil => rfl
  | cons i items ih =>
    rw [ofTurn_cons]
    cases i with
    | init values span =>
      show _ = Code.Lower.init b (.init values span :: ofTurn .initialisation items)
      rw [Code.Lower.init, Code.Lower.init, ih]
    | _ => exact ih

private theorem body_ofTurn (b : Binding) (items : List Item) :
    Code.Lower.body b items = Code.Lower.body b (ofTurn .statement items) := by
  induction items with
  | nil => rfl
  | cons i items ih =>
    rw [ofTurn_cons]
    cases i with
    | stmt s =>
      show _ = Code.Lower.body b (.stmt s :: ofTurn .statement items)
      rw [Code.Lower.body, Code.Lower.body, ih]
    | _ => exact ih

/-! ### Scripts -/

variable {script : Script} {items : List Item}

private theorem walk_rearranged (h : Rearranged script.items items)
    (images : List (String × ImageRole)) :
    Binding.walk { script with items } images = Binding.walk script images := by
  have hpass (t : Turn) : items.forM t.pass = script.items.forM t.pass := by
    rw [forM_pass t items, forM_pass t script.items, h t]
  show (do
    images.forM Binding.callerImage
    items.forM (Turn.pass .declaration)
    items.forM (Turn.pass .initialisation)
    items.forM (Turn.pass .statement)
    Binding.finish script.span.start) = _
  rw [hpass, hpass, hpass]
  rfl

private theorem code_rearranged (h : Rearranged script.items items) (b : Binding) :
    Code.ofScript { script with items } b = Code.ofScript script b := by
  simp only [Code.ofScript]
  rw [init_ofTurn b items, body_ofTurn b items, init_ofTurn b script.items,
    body_ofTurn b script.items, h .initialisation, h .statement]

/-- Moving declarations, `init` blocks and statements past each other leaves the bound names, the
code and all reports as they are. -/
theorem blocks_may_stand_anywhere (h : Rearranged script.items items)
    (images : List (String × ImageRole)) :
    Binding.ofScript { script with items } images = Binding.ofScript script images ∧
      (∀ r, Compilation.bind { script with items } images r = Compilation.bind script images r) ∧
      (∀ b, Code.ofScript { script with items } b = Code.ofScript script b) ∧
      ∀ b r, Compilation.lower { script with items } b r = Compilation.lower script b r := by
  have hbinding : Binding.ofScript { script with items } images = Binding.ofScript script images := by
    simp only [Binding.ofScript, walk_rearranged h]
  refine ⟨hbinding, fun r => ?_, code_rearranged h, fun b r => ?_⟩
  · simp only [Compilation.bind, hbinding]
  · simp only [Compilation.lower, code_rearranged h]

/-- A script whose declarations stand at its end. -/
def declaredLast : Script :=
  (Script.parse "d = s * k;\ninit \x7b k = 2; \x7d\nimages \x7b s = read; d = write; \x7d\n"
    .standard).script

theorem declaredLast_reversed :
    (declaredLast.items.map Item.turn = [.statement, .initialisation, .declaration]) ∧
      (Binding.ofScript declaredLast []).2 = [] ∧
      Binding.ofScript { declaredLast with items := declaredLast.items.reverse } [] =
        Binding.ofScript declaredLast [] := by
  have hturns : declaredLast.items.map Item.turn =
      [.statement, .initialisation, .declaration] := by decide +kernel
  refine ⟨hturns, by decide +kernel, (blocks_may_stand_anywhere (fun t => ?_) []).1⟩
  -- One item for each turn.
  obtain ⟨a, b, c, hitems⟩ : ∃ a b c, declaredLast.items = [a, b, c] :=
    List.length_eq_three.mp (by rw [← List.length_map (f := Item.turn), hturns]; rfl)
  rw [hitems] at hturns ⊢
  simp only [List.map_cons, List.map_nil, List.cons.injEq] at hturns
  obtain ⟨ha, hb, hc, -⟩ := hturns
  cases t <;> simp [ofTurn, ha, hb, hc]

end RasterScript
