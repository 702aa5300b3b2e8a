import Mathlib.Data.List.TakeWhile
import RasterScript.Proofs.Script.Derivation

/-! What the readers accept is derivable: each takes off its tokens a part that the grammar derives
with the value it gives. -/
namespace RasterScript

open Token (Kind Reader)

namespace Token.Reader

variable {α β : Type} {r : Reader α} {f : α → Reader β} {ts rest mid : List Token} {t : Token}

theorem bind_eq_read {b : β} :
    (r >>= f) ts = .read b rest ↔ ∃ a mid, r ts = .read a mid ∧ f a mid = .read b rest := by
  rw [bind_apply]
  cases r ts with
  | read a mid =>
    constructor
    · intro h
      exact ⟨a, mid, rfl, h⟩
    · rintro ⟨_, _, ⟨⟩, h⟩
      exact h
  | stuck mid => simp

theorem pure_eq_read {a b : α} : (pure a : Reader α) ts = .read b rest ↔ a = b ∧ ts = rest := by
  rw [pure_apply]
  simp

theorem expect_eq_read {k : Kind} : expect k ts = .read t rest ↔ ts = t :: rest ∧ t.kind = k := by
  cases ts with
  | nil => simp [expect]
  | cons u us =>
    simp only [expect]
    split
    · next h =>
      simp only [Outcome.read.injEq, List.cons.injEq]
      constructor
      · rintro ⟨rfl, rfl⟩
        exact ⟨⟨rfl, rfl⟩, h⟩
      · rintro ⟨⟨rfl, rfl⟩, -⟩
        exact ⟨rfl, rfl⟩
    · next h =>
      simp only [reduceCtorEq, List.cons.injEq, false_iff]
      rintro ⟨⟨rfl, rfl⟩, hk⟩
      exact h hk

theorem select_eq_read {g : Kind → Option α} {p : Token × α} :
    select g ts = .read p rest ↔ ts = p.1 :: rest ∧ g p.1.kind = some p.2 := by
  obtain ⟨t, a⟩ := p
  cases ts with
  | nil => simp [select]
  | cons u us =>
    simp only [select]
    split
    · next b h =>
      simp only [Outcome.read.injEq, Prod.mk.injEq, List.cons.injEq]
      constructor
      · rintro ⟨⟨rfl, rfl⟩, rfl⟩
        exact ⟨⟨rfl, rfl⟩, h⟩
      · rintro ⟨⟨rfl, rfl⟩, ha⟩
        exact ⟨⟨rfl, Option.some.inj (h.symm.trans ha)⟩, rfl⟩
    · next h =>
      simp only [reduceCtorEq, List.cons.injEq, false_iff]
      rintro ⟨⟨rfl, rfl⟩, ha⟩
      rw [h] at ha
      cases ha

private theorem peek_eq_read {k : Option Kind} :
    peek ts = .read k rest ↔ ts.head?.map Token.kind = k ∧ ts = rest := by
  simp [peek]

theorem peek_bind (f : Option Kind → Reader β) : (peek >>= f) ts = f (ts.head?.map Token.kind) ts :=
  rfl

theorem sized_apply (g : Nat → Reader α) : sized g ts = g ts.length ts := rfl

/-- A reader takes off its tokens only what `D` derives with the value it gives. -/
def Sound (r : Reader α) (D : List Token → α → Prop) : Prop :=
  ∀ ts a rest, r ts = .read a rest → ∃ pre, ts = pre ++ rest ∧ D pre a

theorem Sound.length_le {D : List Token → α → Prop} (h : Sound r D) {a : α}
    (hr : r ts = .read a rest) : rest.length ≤ ts.length := by
  obtain ⟨pre, rfl, -⟩ := h _ _ _ hr
  simp

end Token.Reader

namespace Script.Derivation

open Token.Reader Grammar

/-! ### The tables of the readers -/

theorem terminator_eq_some {k : Kind} {u : Unit} : terminator k = some u ↔ k.isTerminator := by
  cases k <;> simp [terminator, Kind.isTerminator]

theorem sign_eq_some {k : Kind} {op : UnaryOp} : sign k = some op ↔ k = signToken op := by
  constructor
  · intro h; cases k <;> cases h <;> rfl
  · rintro rfl; cases op <;> rfl

theorem assignment_eq_some {k : Kind} {op : AssignOp} :
    assignment k = some op ↔ k = assignToken op := by
  constructor
  · intro h; cases k <;> cases h <;> rfl
  · rintro rfl; cases op <;> rfl

theorem role_eq_some {k : Kind} {r : ImageRole} : role k = some r ↔ k = roleToken r := by
  constructor
  · intro h; cases k <;> cases h <;> rfl
  · rintro rfl; cases r <;> rfl

/-- A level of the readers holds the operators of one tightness. -/
def Holds (level : Grammar.Level) (n : Nat) : Prop :=
  ∀ k op, level k = some op ↔ tightness op = n ∧ k = operatorToken op

/-- The levels of the operators with at least the given tightness. -/
def levelsFrom (n : Nat) : List Grammar.Level := levels.drop (n - 2)

theorem Holds.mk {level : Grammar.Level} {n : Nat}
    (hto : ∀ k op, level k = some op → tightness op = n ∧ k = operatorToken op)
    (hof : ∀ op, tightness op = n → level (operatorToken op) = some op) : Holds level n := by
  intro k op
  constructor
  · exact hto k op
  · rintro ⟨ha, rfl⟩
    exact hof op ha

theorem levelsFrom_eq {n : Nat} (h2 : 2 ≤ n) (h9 : n < 9) :
    ∃ level, levelsFrom n = level :: levelsFrom (n + 1) ∧ Holds level n := by
  have hn : n = 2 ∨ n = 3 ∨ n = 4 ∨ n = 5 ∨ n = 6 ∨ n = 7 ∨ n = 8 := by omega
  rcases hn with rfl | rfl | rfl | rfl | rfl | rfl | rfl
  · exact ⟨disjunction, rfl, .mk (by intro k op h; cases k <;> cases h; exact ⟨rfl, rfl⟩)
      (by intro op h; cases op <;> cases h; rfl)⟩
  · exact ⟨exclusion, rfl, .mk (by intro k op h; cases k <;> cases h; exact ⟨rfl, rfl⟩)
      (by intro op h; cases op <;> cases h; rfl)⟩
  · exact ⟨conjunction, rfl, .mk (by intro k op h; cases k <;> cases h; exact ⟨rfl, rfl⟩)
      (by intro op h; cases op <;> cases h; rfl)⟩
  · exact ⟨equality, rfl, .mk (by intro k op h; cases k <;> cases h <;> exact ⟨rfl, rfl⟩)
      (by intro op h; cases op <;> cases h <;> rfl)⟩
  · exact ⟨relation, rfl, .mk (by intro k op h; cases k <;> cases h <;> exact ⟨rfl, rfl⟩)
      (by intro op h; cases op <;> cases h <;> rfl)⟩
  · exact ⟨sum, rfl, .mk (by intro k op h; cases k <;> cases h <;> exact ⟨rfl, rfl⟩)
      (by intro op h; cases op <;> cases h <;> rfl)⟩
  · exact ⟨product, rfl, .mk (by intro k op h; cases k <;> cases h <;> exact ⟨rfl, rfl⟩)
      (by intro op h; cases op <;> cases h <;> rfl)⟩

section Lists

variable {α : Type} {item : Reader α} {D : List Token → α → Prop} {L : List Token → List α → Prop}

/-- A comma list is sound for any relation that is closed under its two rules. -/
theorem commaTail_sound (h : Sound item D) (done : L [] [])
    (more : ∀ {c ts xs a as}, c.kind = .comma → D ts a → L xs as → L (c :: (ts ++ xs)) (a :: as))
    (n : Nat) : Sound (commaTail item n) L := by
  induction n with
  | zero =>
    intro ts as rest hr
    obtain ⟨rfl, rfl⟩ := pure_eq_read.mp hr
    exact ⟨[], rfl, done⟩
  | succ n ih =>
    intro ts as rest hr
    rw [commaTail, peek_bind] at hr
    generalize ts.head?.map Token.kind = ahead at hr
    split at hr
    · simp only [bind_eq_read, pure_eq_read, expect_eq_read] at hr
      obtain ⟨c, us, ⟨rfl, hk⟩, a, vs, ha, as', ws, has, rfl, rfl⟩ := hr
      obtain ⟨xs, rfl, hx⟩ := h _ _ _ ha
      obtain ⟨ys, rfl, hy⟩ := ih _ _ _ has
      exact ⟨c :: (xs ++ ys), by simp, more hk hx hy⟩
    · obtain ⟨rfl, rfl⟩ := pure_eq_read.mp hr
      exact ⟨[], rfl, done⟩

private theorem entries_sound (h : Sound item D) (n : Nat) :
    Sound (entries item n) (Entries D) := by
  induction n with
  | zero =>
    intro ts as rest hr
    obtain ⟨rfl, rfl⟩ := pure_eq_read.mp hr
    exact ⟨[], rfl, .done⟩
  | succ n ih =>
    intro ts as rest hr
    rw [entries, peek_bind] at hr
    generalize ts.head?.map Token.kind = ahead at hr
    split at hr
    · obtain ⟨rfl, rfl⟩ := pure_eq_read.mp hr
      exact ⟨[], rfl, .done⟩
    all_goals simp only [bind_eq_read, pure_eq_read] at hr
    all_goals first
      | obtain ⟨⟨t, u⟩, us, ht, has⟩ := hr
        obtain ⟨rfl, hk⟩ := select_eq_read.mp ht
        obtain ⟨ys, rfl, hy⟩ := ih _ _ _ has
        exact ⟨t :: ys, rfl, .terminator (terminator_eq_some.mp hk) hy⟩
      | obtain ⟨a, us, ha, as', vs, has, rfl, rfl⟩ := hr
        obtain ⟨xs, rfl, hx⟩ := h _ _ _ ha
        obtain ⟨ys, rfl, hy⟩ := ih _ _ _ has
        exact ⟨xs ++ ys, by simp, .entry hx hy⟩

end Lists

/-! ### Expressions -/

section Expressions

variable {inner : Reader Expr}

theorem ident_eq_read {ts rest : List Token} {id : Ident} :
    ident ts = .read id rest ↔ ∃ i, ts = i :: rest ∧ i.kind = .ident ∧ id = identOf i := by
  simp only [ident, bind_eq_read, pure_eq_read, expect_eq_read, identOf]
  constructor
  · rintro ⟨i, us, ⟨rfl, hk⟩, rfl, rfl⟩
    exact ⟨i, rfl, hk, rfl⟩
  · rintro ⟨i, rfl, hk, rfl⟩
    exact ⟨i, rest, ⟨rfl, hk⟩, rfl, rfl⟩

private theorem commaList_sound (h : Sound inner (Expression anyGroups)) :
    Sound (commaList inner) (Arguments anyGroups) := by
  intro ts es rest hr
  simp only [commaList, bind_eq_read, pure_eq_read, sized_apply] at hr
  obtain ⟨e, us, he, es', vs, hes, rfl, rfl⟩ := hr
  obtain ⟨xs, rfl, hx⟩ := h _ _ _ he
  obtain ⟨ys, rfl, hy⟩ := commaTail_sound (L := MoreArguments anyGroups) h .done .more _ _ _ _ hes
  exact ⟨xs ++ ys, by simp, .some hx hy⟩

private theorem commaListUntil_sound (h : Sound inner (Expression anyGroups)) (close : Kind) :
    Sound (commaListUntil close inner) (Arguments anyGroups) := by
  intro ts es rest hr
  rw [commaListUntil, peek_bind] at hr
  split at hr
  · obtain ⟨rfl, rfl⟩ := pure_eq_read.mp hr
    exact ⟨[], rfl, .none⟩
  · exact commaList_sound h _ _ _ hr

private theorem coord_sound (h : Sound inner (Expression anyGroups)) :
    Sound (coord inner) (Coordinate anyGroups) := by
  intro ts x rest hr
  rw [coord, peek_bind] at hr
  split at hr
  · simp only [bind_eq_read, pure_eq_read, expect_eq_read] at hr
    obtain ⟨d, us, ⟨rfl, hk⟩, e, vs, he, rfl, rfl⟩ := hr
    obtain ⟨xs, rfl, hx⟩ := h _ _ _ he
    exact ⟨d :: xs, rfl, .relative hk hx⟩
  · simp only [bind_eq_read, pure_eq_read] at hr
    obtain ⟨e, vs, he, rfl, rfl⟩ := hr
    obtain ⟨xs, rfl, hx⟩ := h _ _ _ he
    exact ⟨xs, rfl, .absolute hx⟩

private theorem selector_sound (h : Sound inner (Expression anyGroups)) :
    Sound (selector inner) (Group anyGroups) := by
  intro ts g rest hr
  simp only [selector, commaList, bind_eq_read, pure_eq_read, expect_eq_read, sized_apply] at hr
  obtain ⟨o, us, ⟨rfl, ho⟩, -, vs, ⟨x, ws, hr, more, vs', hmore, rfl, rfl⟩, c, zs, ⟨rfl, hc⟩, rfl,
    rfl⟩ := hr
  obtain ⟨xs, rfl, hx⟩ := coord_sound h _ _ _ hr
  obtain ⟨ys, rfl, hy⟩ :=
    commaTail_sound (L := MoreCoordinates anyGroups) (coord_sound h) .done .more _ _ _ _ hmore
  exact ⟨o :: (xs ++ (ys ++ [c])), by simp, .mk ho hx hy hc⟩

private theorem parenthesised_eq_read {α : Type} {r : Reader α} {ts rest : List Token} {a : α}
    {s : Span} (hr : parenthesised r ts = .read (a, s) rest) :
    ∃ o c us, ts = o :: us ∧ o.kind = .lparen ∧ r us = .read a (c :: rest) ∧ c.kind = .rparen ∧
      s = o.span.join c.span := by
  simp only [parenthesised, bind_eq_read, pure_eq_read, expect_eq_read, Prod.mk.injEq] at hr
  obtain ⟨o, us, ⟨rfl, ho⟩, b, vs, hb, c, ws, ⟨rfl, hc⟩, ⟨rfl, rfl⟩, rfl⟩ := hr
  exact ⟨o, c, us, rfl, ho, hb, hc, rfl⟩

private theorem named_sound (h : Sound inner (Expression anyGroups)) :
    Sound (named inner) (Primary anyGroups) := by
  intro ts e rest hr
  rw [named, bind_eq_read] at hr
  obtain ⟨id, us, hid, hr⟩ := hr
  obtain ⟨i, rfl, hi, rfl⟩ := ident_eq_read.mp hid
  rw [peek_bind] at hr
  generalize us.head?.map Token.kind = ahead at hr
  split at hr
  · simp only [bind_eq_read, pure_eq_read] at hr
    obtain ⟨⟨args, parens⟩, vs, hparens, rfl, rfl⟩ := hr
    obtain ⟨o, c, ws, rfl, ho, hargs, hc, rfl⟩ := parenthesised_eq_read hparens
    obtain ⟨xs, rfl, hx⟩ := commaListUntil_sound h _ _ _ _ hargs
    exact ⟨i :: o :: (xs ++ [c]), by simp, .call hi ho hx hc⟩
  · rw [bind_eq_read] at hr
    obtain ⟨g, vs, hg, hr⟩ := hr
    obtain ⟨xs, rfl, hx⟩ := selector_sound h _ _ _ hg
    rw [peek_bind] at hr
    split at hr
    · simp only [bind_eq_read, pure_eq_read] at hr
      obtain ⟨g', ws, hg', rfl, rfl⟩ := hr
      obtain ⟨ys, rfl, hy⟩ := selector_sound h _ _ _ hg'
      exact ⟨i :: (xs ++ ys), by simp, .imageTwice hi hx hy trivial⟩
    · obtain ⟨rfl, rfl⟩ := pure_eq_read.mp hr
      exact ⟨i :: xs, rfl, .image hi hx trivial⟩
  · obtain ⟨rfl, rfl⟩ := pure_eq_read.mp hr
    exact ⟨[i], rfl, .name hi⟩

private theorem atom_sound (h : Sound inner (Expression anyGroups)) :
    Sound (atom inner) (Primary anyGroups) := by
  intro ts e rest hr
  rw [atom, peek_bind] at hr
  generalize ts.head?.map Token.kind = ahead at hr
  split at hr
  · simp only [bind_eq_read, pure_eq_read, expect_eq_read] at hr
    obtain ⟨t, us, ⟨rfl, ht⟩, rfl, rfl⟩ := hr
    exact ⟨[t], rfl, .number ht⟩
  · exact named_sound h _ _ _ hr
  · simp only [bind_eq_read, pure_eq_read, expect_eq_read] at hr
    obtain ⟨o, us, ⟨rfl, ho⟩, items, vs, hitems, c, ws, ⟨rfl, hc⟩, rfl, rfl⟩ := hr
    obtain ⟨xs, rfl, hx⟩ := commaListUntil_sound h _ _ _ _ hitems
    exact ⟨o :: (xs ++ [c]), by simp, .list ho hx hc⟩
  · simp only [bind_eq_read, pure_eq_read] at hr
    obtain ⟨⟨e, parens⟩, vs, hparens, rfl, rfl⟩ := hr
    obtain ⟨o, c, ws, rfl, ho, he, hc, rfl⟩ := parenthesised_eq_read hparens
    obtain ⟨xs, rfl, hx⟩ := h _ _ _ he
    exact ⟨o :: (xs ++ [c]), by simp, .paren ho hx hc⟩
  · cases hr

theorem operand_sound (h : Sound inner (Expression anyGroups)) (n : Nat) :
    Sound (operand inner n) (Operand anyGroups) := by
  induction n with
  | zero =>
    intro ts e rest hr
    cases hr
  | succ n ih =>
    intro ts e rest hr
    rw [operand, peek_bind] at hr
    generalize hahead : (ts.head?.map Token.kind).bind sign = ahead at hr
    split at hr
    · simp only [bind_eq_read, pure_eq_read] at hr
      obtain ⟨⟨o, op'⟩, us, ho, e, vs, he, rfl, rfl⟩ := hr
      obtain ⟨rfl, -⟩ := select_eq_read.mp ho
      obtain ⟨xs, rfl, hx⟩ := ih _ _ _ he
      exact ⟨o :: xs, rfl, .signed (sign_eq_some.mp hahead) hx⟩
    · rw [bind_eq_read] at hr
      obtain ⟨base, us, hbase, hr⟩ := hr
      obtain ⟨xs, rfl, hx⟩ := atom_sound h _ _ _ hbase
      rw [peek_bind] at hr
      split at hr
      · simp only [bind_eq_read, pure_eq_read, expect_eq_read] at hr
        obtain ⟨o, vs, ⟨rfl, ho⟩, e, ws, he, rfl, rfl⟩ := hr
        obtain ⟨ys, rfl, hy⟩ := ih _ _ _ he
        exact ⟨xs ++ o :: ys, by simp, .power hx ho hy⟩
      · obtain ⟨rfl, rfl⟩ := pure_eq_read.mp hr
        exact ⟨xs, rfl, .primary hx⟩

private theorem chain_sound {level : Grammar.Level} {next : Reader Expr} {n : Nat} (h9 : n < 9)
    (holds : Holds level n) (h : Sound next (Operators anyGroups (n + 1))) (m : Nat)
    {left e : Expr} {ls ts rest : List Token} (hl : Operators anyGroups n ls left)
    (hr : chain level next m left ts = .read e rest) :
    ∃ pre, ts = pre ++ rest ∧ Operators anyGroups n (ls ++ pre) e := by
  induction m generalizing left ls ts with
  | zero =>
    obtain ⟨rfl, rfl⟩ := pure_eq_read.mp hr
    exact ⟨[], rfl, by simpa using hl⟩
  | succ m ih =>
    rw [chain, peek_bind] at hr
    generalize hahead : (ts.head?.map Token.kind).bind level = ahead at hr
    split at hr
    · simp only [bind_eq_read] at hr
      obtain ⟨⟨o, op'⟩, us, ho, right, vs, hright, hr⟩ := hr
      obtain ⟨rfl, -⟩ := select_eq_read.mp ho
      obtain ⟨xs, rfl, hx⟩ := h _ _ _ hright
      obtain ⟨hn, hk⟩ := (holds _ _).mp hahead
      obtain ⟨ys, rfl, hy⟩ := ih (.operator h9 hn hl hk hx) hr
      exact ⟨o :: (xs ++ ys), by simp, by simpa using hy⟩
    · obtain ⟨rfl, rfl⟩ := pure_eq_read.mp hr
      exact ⟨[], rfl, by simpa using hl⟩

/-- Each level is sound if the one above the tightest is, the levels being `d` away from it. -/
theorem layered_sound {tightest : Reader Expr} (h : Sound tightest (Operand anyGroups)) (d : Nat)
    (hd : d ≤ 7) : Sound (layered tightest (levelsFrom (9 - d))) (Operators anyGroups (9 - d)) := by
  induction d with
  | zero =>
    intro ts e rest hr
    obtain ⟨pre, rfl, hpre⟩ := h _ _ _ hr
    exact ⟨pre, rfl, .operand hpre⟩
  | succ d ih =>
    intro ts e rest hr
    obtain ⟨level, hlevels, holds⟩ := levelsFrom_eq (n := 9 - (d + 1)) (by omega) (by omega)
    rw [show 9 - (d + 1) + 1 = 9 - d by omega] at hlevels
    rw [hlevels, layered, bind_eq_read] at hr
    obtain ⟨first, us, hfirst, hr⟩ := hr
    obtain ⟨xs, rfl, hx⟩ := ih (by omega) _ _ _ hfirst
    rw [show 9 - d = 9 - (d + 1) + 1 by omega] at hx
    have next := ih (by omega)
    rw [show 9 - d = 9 - (d + 1) + 1 by omega] at next hr
    obtain ⟨ys, rfl, hy⟩ :=
      chain_sound (by omega) holds next _ (.tighter (by omega) (by omega) hx) hr
    exact ⟨xs ++ ys, by simp, hy⟩

end Expressions

theorem expression_sound (n : Nat) : Sound (expression n) (Expression anyGroups) := by
  induction n with
  | zero =>
    intro ts e rest hr
    cases hr
  | succ n ih =>
    intro ts e rest hr
    rw [expression, bind_eq_read] at hr
    obtain ⟨test, us, htest, hr⟩ := hr
    obtain ⟨xs, rfl, hx⟩ :=
      layered_sound (fun ts e rest hr => operand_sound ih ts.length ts e rest hr) 7 (by omega) _ _ _
        htest
    rw [peek_bind] at hr
    split at hr
    · simp only [bind_eq_read, pure_eq_read, expect_eq_read] at hr
      obtain ⟨o, vs, ⟨rfl, ho⟩, yes, vs', hyes, c, us', ⟨rfl, hc⟩, no, ws, hno, rfl, rfl⟩ := hr
      obtain ⟨ys, rfl, hy⟩ := ih _ _ _ hyes
      obtain ⟨zs, rfl, hz⟩ := ih _ _ _ hno
      exact ⟨xs ++ o :: (ys ++ c :: zs), by simp, .choice hx ho hy hc hz⟩
    · obtain ⟨rfl, rfl⟩ := pure_eq_read.mp hr
      exact ⟨xs, rfl, .operators hx⟩

private theorem expr_sound : Sound expr (Expression anyGroups) :=
  fun ts e rest hr => expression_sound ts.length ts e rest hr

/-! ### Statements -/

private theorem condition_sound : Sound condition (Condition anyGroups) := by
  intro ts e rest hr
  simp only [condition, bind_eq_read, pure_eq_read] at hr
  obtain ⟨⟨e, parens⟩, us, hparens, rfl, rfl⟩ := hr
  obtain ⟨o, c, ws, rfl, ho, he, hc, rfl⟩ := parenthesised_eq_read hparens
  obtain ⟨xs, rfl, hx⟩ := expr_sound _ _ _ he
  exact ⟨o :: (xs ++ [c]), by simp, .mk ho hx hc⟩

private theorem header_sound {ts rest : List Token} {var : Ident} {source : Source}
    (hr : header ts = .read (var, source) rest) :
    ∃ i kin xs, ts = i :: kin :: (xs ++ rest) ∧ i.kind = .ident ∧ kin.kind = .kwIn ∧
      var = identOf i ∧ Iterated anyGroups xs source := by
  simp only [header, bind_eq_read, expect_eq_read, peek_eq_read] at hr
  obtain ⟨id, us, hid, kin, vs, ⟨rfl, hkin⟩, first, ws, hfirst, ahead, ws', ⟨rfl, rfl⟩, hr⟩ := hr
  obtain ⟨i, rfl, hi, rfl⟩ := ident_eq_read.mp hid
  obtain ⟨xs, rfl, hx⟩ := expr_sound _ _ _ hfirst
  split at hr
  · simp only [bind_eq_read, pure_eq_read, expect_eq_read, Prod.mk.injEq] at hr
    obtain ⟨c, zs, ⟨rfl, hc⟩, high, us', hhigh, ⟨rfl, rfl⟩, rfl⟩ := hr
    obtain ⟨ys, rfl, hy⟩ := expr_sound _ _ _ hhigh
    exact ⟨i, kin, xs ++ c :: ys, by simp, hi, hkin, rfl, .range hx hc hy⟩
  · simp only [pure_eq_read, Prod.mk.injEq] at hr
    obtain ⟨⟨rfl, rfl⟩, rfl⟩ := hr
    exact ⟨i, kin, xs, rfl, hi, hkin, rfl, .list hx⟩

private theorem elseFollows_eq (ts : List Token) :
    elseFollows ts =
      (((ts.dropWhile fun t => t.kind = .newline).head?.map Token.kind) = some .kwElse) := by
  simp [elseFollows, ← List.find?_not_eq_head?_dropWhile]

theorem elseFollows_newlines {ends rest : List Token} {o : Token}
    (hends : ∀ n ∈ ends, n.kind = .newline) (ho : o.kind = .kwElse) :
    elseFollows (ends ++ o :: rest) = true := by
  rw [elseFollows_eq, List.dropWhile_append_of_pos (by simpa using hends)]
  simp [ho]

theorem elseAhead_eq_true {ts rest : List Token} (hr : elseAhead ts = .read true rest) :
    ∃ ends o, ts = ends ++ o :: rest ∧ (∀ n ∈ ends, n.kind = .newline) ∧ o.kind = .kwElse := by
  unfold elseAhead at hr
  split at hr
  · next o us h =>
    split at hr
    · next ho =>
      cases hr
      refine ⟨ts.takeWhile fun t => t.kind = .newline, o, ?_, ?_, ho⟩
      · rw [← h, List.takeWhile_append_dropWhile]
      · intro n hn
        simpa using List.mem_takeWhile_imp hn
    · cases hr
  · cases hr

theorem elseAhead_eq_false {ts rest : List Token} (hr : elseAhead ts = .read false rest) :
    ts = rest ∧ elseFollows ts = false := by
  unfold elseAhead at hr
  have hf := elseFollows_eq ts
  split at hr
  · next o us h =>
    split at hr
    · cases hr
    · next ho =>
      cases hr
      simpa [h, ho] using hf
  · next h =>
    cases hr
    simpa [h] using hf

theorem elseAhead_ne_stuck {ts rest : List Token} : elseAhead ts ≠ .stuck rest := by
  intro h
  unfold elseAhead at h
  split at h
  · split at h <;> cases h
  · cases h

theorem Body.ofEntries {A : Groups} {ts : List Token} {body : List Stmt}
    (h : Entries (Statement A) ts body) : Body A ts body := by
  induction h with
  | done => exact .done
  | terminator ht _ ih => exact .terminator ht ih
  | entry hs _ ih => exact .statement hs ih

private theorem braced_eq_read {α : Type} {entry : Reader α} {D : List Token → α → Prop}
    (h : Sound entry D) {ts rest : List Token} {as : List α} {s : Span}
    (hr : braced entry ts = .read (as, s) rest) :
    ∃ o xs c, ts = o :: (xs ++ c :: rest) ∧ o.kind = .lbrace ∧ Entries D xs as ∧ c.kind = .rbrace ∧
      s = o.span.join c.span := by
  simp only [braced, bind_eq_read, pure_eq_read, expect_eq_read, sized_apply, Prod.mk.injEq] at hr
  obtain ⟨o, us, ⟨rfl, ho⟩, as', vs, has, c, ws, ⟨rfl, hc⟩, ⟨rfl, rfl⟩, rfl⟩ := hr
  obtain ⟨xs, rfl, hx⟩ := entries_sound h _ _ _ _ has
  exact ⟨o, xs, c, rfl, ho, hx, hc, rfl⟩

/-- What ends open is followed by no `else`, so what an `else` follows does not end open. -/
theorem endsOpen_eq_false {ends rest : List Token} {o : Token} {s : Stmt}
    (hopen : endsOpen s → elseFollows (ends ++ o :: rest) = false)
    (hends : ∀ n ∈ ends, n.kind = .newline) (ho : o.kind = .kwElse) : endsOpen s = false := by
  rw [← Bool.not_eq_true]
  intro h
  have hnone := hopen h
  rw [elseFollows_newlines hends ho] at hnone
  cases hnone

/-- Readers take an `else` whenever one can follow, so what ends open is followed by none. -/
theorem statement_sound (n : Nat) {ts rest : List Token} {s : Stmt}
    (hr : statement n ts = .read s rest) :
    (∃ pre, ts = pre ++ rest ∧ Statement anyGroups pre s) ∧
      (endsOpen s → elseFollows rest = false) := by
  induction n generalizing ts s rest with
  | zero => cases hr
  | succ n ih =>
    have hs : Sound (statement n) (Statement anyGroups) := fun ts s rest hr => (ih hr).1
    rw [statement, peek_bind] at hr
    generalize ts.head?.map Token.kind = ahead at hr
    split at hr
    · simp only [bind_eq_read, pure_eq_read, select_eq_read] at hr
      obtain ⟨id, us, hid, ⟨o, op⟩, vs, ⟨rfl, ho⟩, e, ws, he, ⟨t, u⟩, zs, ⟨rfl, ht⟩, rfl, rfl⟩ := hr
      obtain ⟨i, rfl, hi, rfl⟩ := ident_eq_read.mp hid
      obtain ⟨xs, rfl, hx⟩ := expr_sound _ _ _ he
      exact ⟨⟨i :: o :: (xs ++ [t]), by simp, .assign hi (assignment_eq_some.mp ho) hx
        (terminator_eq_some.mp ht)⟩, by simp [endsOpen]⟩
    · simp only [bind_eq_read, expect_eq_read] at hr
      obtain ⟨k, us, ⟨rfl, hk⟩, test, vs, htest, yes, ws, hyes, found, zs, helse, hr⟩ := hr
      obtain ⟨xs, rfl, hx⟩ := condition_sound _ _ _ htest
      obtain ⟨⟨ys, rfl, hy⟩, hopen⟩ := ih hyes
      cases found with
      | true =>
        simp only [if_true, bind_eq_read, pure_eq_read] at hr
        obtain ⟨no, us', hno, rfl, rfl⟩ := hr
        obtain ⟨ends, o, rfl, hends, ho⟩ := elseAhead_eq_true helse
        obtain ⟨⟨ns, rfl, hn⟩, hlast⟩ := ih hno
        have hclosed := endsOpen_eq_false hopen hends ho
        exact ⟨⟨k :: (xs ++ (ys ++ (ends ++ o :: ns))), by simp,
          .condElse hk hx hy hclosed hends ho hn⟩, hlast⟩
      | false =>
        simp only [Bool.false_eq_true, if_false, pure_eq_read] at hr
        obtain ⟨rfl, rfl⟩ := hr
        obtain ⟨rfl, hf⟩ := elseAhead_eq_false helse
        exact ⟨⟨k :: (xs ++ ys), by simp, .cond hk hx hy⟩, fun _ => hf⟩
    any_goals simp only [bind_eq_read, pure_eq_read, expect_eq_read, select_eq_read] at hr
    · obtain ⟨k, us, ⟨rfl, hk⟩, test, vs, htest, body, ws, hbody, rfl, rfl⟩ := hr
      obtain ⟨xs, rfl, hx⟩ := condition_sound _ _ _ htest
      obtain ⟨⟨ys, rfl, hy⟩, hopen⟩ := ih hbody
      exact ⟨⟨k :: (xs ++ ys), by simp, .loop hk hx hy⟩, hopen⟩
    · obtain ⟨k, us, ⟨rfl, hk⟩, test, vs, htest, body, ws, hbody, rfl, rfl⟩ := hr
      obtain ⟨xs, rfl, hx⟩ := condition_sound _ _ _ htest
      obtain ⟨⟨ys, rfl, hy⟩, hopen⟩ := ih hbody
      exact ⟨⟨k :: (xs ++ ys), by simp, .loop hk hx hy⟩, hopen⟩
    · obtain ⟨k, us, ⟨rfl, hk⟩, ⟨⟨var, source⟩, parens⟩, vs, hparens, body, ws, hbody, rfl, rfl⟩ := hr
      obtain ⟨o, c, zs, rfl, ho, hheader, hc, rfl⟩ := parenthesised_eq_read hparens
      obtain ⟨i, kin, xs, rfl, hi, hkin, rfl, hx⟩ := header_sound hheader
      obtain ⟨⟨ys, rfl, hy⟩, hopen⟩ := ih hbody
      exact ⟨⟨k :: o :: i :: kin :: (xs ++ c :: ys), by simp,
        .foreach hk ho hi hkin hx hc hy⟩, hopen⟩
    · obtain ⟨k, us, ⟨rfl, hk⟩, test, vs, htest, ⟨t, u⟩, ws, ⟨rfl, ht⟩, rfl, rfl⟩ := hr
      obtain ⟨xs, rfl, hx⟩ := condition_sound _ _ _ htest
      exact ⟨⟨k :: (xs ++ [t]), by simp, .breakIf hk hx (terminator_eq_some.mp ht)⟩,
        by simp [endsOpen]⟩
    · obtain ⟨k, us, ⟨rfl, hk⟩, ⟨t, u⟩, ws, ⟨rfl, ht⟩, rfl, rfl⟩ := hr
      exact ⟨⟨[k, t], rfl, .leave hk (terminator_eq_some.mp ht)⟩, by simp [endsOpen]⟩
    · obtain ⟨⟨body, span⟩, us, hbody, rfl, rfl⟩ := hr
      obtain ⟨o, xs, c, rfl, ho, hx, hc, rfl⟩ := braced_eq_read hs hbody
      exact ⟨⟨o :: (xs ++ [c]), by simp, .block ho (.ofEntries hx) hc⟩, by simp [endsOpen]⟩
    · cases hr

/-! ### Items -/

theorem imageDecl_sound : Sound imageDecl ImageEntry := by
  intro ts d rest hr
  simp only [imageDecl, bind_eq_read, pure_eq_read, expect_eq_read, select_eq_read] at hr
  obtain ⟨id, us, hid, o, vs, ⟨rfl, ho⟩, ⟨r, role⟩, ws, ⟨rfl, hrole⟩, ⟨t, u⟩, zs, ⟨rfl, ht⟩, rfl,
    rfl⟩ := hr
  obtain ⟨i, rfl, hi, rfl⟩ := ident_eq_read.mp hid
  exact ⟨[i, o, r, t], rfl, .mk hi ho (role_eq_some.mp hrole) (terminator_eq_some.mp ht)⟩

theorem namedValue_sound : Sound namedValue (ValueEntry anyGroups) := by
  intro ts v rest hr
  simp only [namedValue, bind_eq_read, pure_eq_read, expect_eq_read, select_eq_read] at hr
  obtain ⟨id, us, hid, o, vs, ⟨rfl, ho⟩, e, ws, he, ⟨t, u⟩, zs, ⟨rfl, ht⟩, rfl, rfl⟩ := hr
  obtain ⟨i, rfl, hi, rfl⟩ := ident_eq_read.mp hid
  obtain ⟨xs, rfl, hx⟩ := expr_sound _ _ _ he
  exact ⟨i :: o :: (xs ++ [t]), by simp, .mk hi ho hx (terminator_eq_some.mp ht)⟩

theorem item_sound : Sound item (TopStatement anyGroups) := by
  intro ts i rest hr
  rw [item, peek_bind] at hr
  generalize ts.head?.map Token.kind = ahead at hr
  split at hr
  all_goals simp only [bind_eq_read, pure_eq_read, expect_eq_read, sized_apply] at hr
  · obtain ⟨k, us, ⟨rfl, hk⟩, ⟨decls, span⟩, vs, hdecls, rfl, rfl⟩ := hr
    obtain ⟨o, xs, c, rfl, ho, hx, hc, rfl⟩ := braced_eq_read imageDecl_sound hdecls
    exact ⟨k :: o :: (xs ++ [c]), by simp, .images hk ho hx hc⟩
  · obtain ⟨k, us, ⟨rfl, hk⟩, ⟨values, span⟩, vs, hvalues, rfl, rfl⟩ := hr
    obtain ⟨o, xs, c, rfl, ho, hx, hc, rfl⟩ := braced_eq_read namedValue_sound hvalues
    exact ⟨k :: o :: (xs ++ [c]), by simp, .init hk ho hx hc⟩
  · obtain ⟨k, us, ⟨rfl, hk⟩, ⟨values, span⟩, vs, hvalues, rfl, rfl⟩ := hr
    obtain ⟨o, xs, c, rfl, ho, hx, hc, rfl⟩ := braced_eq_read namedValue_sound hvalues
    exact ⟨k :: o :: (xs ++ [c]), by simp, .options hk ho hx hc⟩
  · obtain ⟨s, us, hs, rfl, rfl⟩ := hr
    obtain ⟨⟨xs, rfl, hx⟩, -⟩ := statement_sound _ hs
    exact ⟨xs, rfl, .statement hx⟩

end Script.Derivation

end RasterScript
