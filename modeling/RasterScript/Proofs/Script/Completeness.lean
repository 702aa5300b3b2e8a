import RasterScript.Proofs.Script.Soundness

/-! What the grammar derives is accepted: before tokens that cannot extend it, a derived part is
read off whole, with the value of its derivation. -/
namespace RasterScript

open Token (Kind Reader)

namespace Token.Reader

variable {α β : Type} {r : Reader α} {f : α → Reader β} {ts mid : List Token} {t : Token}

theorem bind_read {a : α} (h : r ts = .read a mid) : (r >>= f) ts = f a mid := by
  rw [bind_apply, h]

theorem expect_cons {k : Kind} (h : t.kind = k) : expect k (t :: ts) = .read t ts :=
  expect_eq_read.mpr ⟨rfl, h⟩

theorem select_cons {g : Kind → Option α} {a : α} (h : g t.kind = some a) :
    select g (t :: ts) = .read (t, a) ts :=
  select_eq_read.mpr ⟨rfl, h⟩

end Token.Reader

namespace Script.Derivation

open Token.Reader Grammar

variable {A : Groups}

/-! ### What stands first -/

/-- The kinds of token that a primary starts with. -/
def startsPrimary (k : Kind) : Bool :=
  k = .number || k = .ident || k = .lbracket || k = .lparen

/-- The kinds of token that an expression starts with. -/
def startsExpression (k : Kind) : Bool := startsPrimary k || (sign k).isSome

theorem Primary.head : ∀ {ts e}, Primary A ts e → ∃ t us, ts = t :: us ∧ startsPrimary t.kind
  | _, _, .number h => ⟨_, _, rfl, by simp [startsPrimary, h]⟩
  | _, _, .name h => ⟨_, _, rfl, by simp [startsPrimary, h]⟩
  | _, _, .call h _ _ _ => ⟨_, _, rfl, by simp [startsPrimary, h]⟩
  | _, _, .image h _ _ => ⟨_, _, rfl, by simp [startsPrimary, h]⟩
  | _, _, .imageTwice h _ _ _ => ⟨_, _, rfl, by simp [startsPrimary, h]⟩
  | _, _, .list h _ _ => ⟨_, _, rfl, by simp [startsPrimary, h]⟩
  | _, _, .paren h _ _ => ⟨_, _, rfl, by simp [startsPrimary, h]⟩

theorem Operand.head {ts : List Token} {e : Expr} (h : Operand A ts e) :
    ∃ t us, ts = t :: us ∧ startsExpression t.kind := by
  cases h with
  | signed ho _ => exact ⟨_, _, rfl, by simp [startsExpression, sign_eq_some.mpr ho]⟩
  | power hb _ _ =>
    obtain ⟨t, us, rfl, ht⟩ := hb.head
    exact ⟨t, _, rfl, by simp [startsExpression, ht]⟩
  | primary hb =>
    obtain ⟨t, us, rfl, ht⟩ := hb.head
    exact ⟨t, us, rfl, by simp [startsExpression, ht]⟩

theorem Operators.head : ∀ {n ts e}, Operators A n ts e →
    ∃ t us, ts = t :: us ∧ startsExpression t.kind
  | _, _, _, .operand h => h.head
  | _, _, _, .tighter _ _ h => h.head
  | _, _, _, .operator _ _ h _ _ => by
    obtain ⟨t, us, rfl, ht⟩ := h.head
    exact ⟨t, _, rfl, ht⟩

theorem Operators.length_pos {n : Nat} {ts : List Token} {e : Expr} (h : Operators A n ts e) :
    0 < ts.length := by
  obtain ⟨t, us, rfl, -⟩ := h.head
  exact Nat.succ_pos _

theorem Expression.head {ts : List Token} {e : Expr} (h : Expression A ts e) :
    ∃ t us, ts = t :: us ∧ startsExpression t.kind := by
  cases h with
  | operators h => exact h.head
  | choice h _ _ _ _ =>
    obtain ⟨t, us, rfl, ht⟩ := h.head
    exact ⟨t, _, rfl, ht⟩

theorem Primary.length_pos {ts : List Token} {e : Expr} (h : Primary A ts e) : 0 < ts.length := by
  obtain ⟨t, us, rfl, -⟩ := h.head
  exact Nat.succ_pos _

theorem Primary.sign_eq_none {ts rest : List Token} {e : Expr} (h : Primary A ts e) :
    ((ts ++ rest).head?.map Token.kind).bind sign = none := by
  obtain ⟨t, us, rfl, ht⟩ := h.head
  simp only [List.cons_append, List.head?_cons, Option.map_some, Option.bind_some]
  cases hk : t.kind <;> rw [hk] at ht <;> first | rfl | cases ht

theorem Expression.head_ne {ts rest : List Token} {e : Expr} {k : Kind} (h : Expression A ts e)
    (hk : startsExpression k = false) : (ts ++ rest).head?.map Token.kind ≠ some k := by
  obtain ⟨t, us, rfl, ht⟩ := h.head
  intro he
  simp only [List.cons_append, List.head?_cons, Option.map_some, Option.some.injEq] at he
  rw [he, hk] at ht
  cases ht

theorem Group.head {ts : List Token} {g : Selector Expr} (h : Group A ts g) :
    ∃ t us, ts = t :: us ∧ t.kind = .lbracket := by
  cases h with
  | mk ho _ _ _ => exact ⟨_, _, rfl, ho⟩

/-! ### What may follow -/

/-- How tightly a token would hold an operand before it; most hold none. -/
def pull : Kind → Nat
  | .lparen | .lbracket => 10
  | .caret => 9
  | .star | .slash | .percent => 8
  | .plus | .minus => 7
  | .less | .lessEqual | .greater | .greaterEqual => 6
  | .equal | .notEqual => 5
  | .andAnd => 4
  | .xor => 3
  | .orOr => 2
  | .question => 1
  | _ => 0

def pullAhead : List Token → Nat
  | [] => 0
  | t :: _ => pull t.kind

private theorem pull_operatorToken (op : BinaryOp) : pull (operatorToken op) = tightness op := by
  cases op <;> rfl

private theorem ne_of_pullAhead {n : Nat} {k : Kind} {ts : List Token} (h : pullAhead ts < n)
    (hk : n ≤ pull k) : ts.head?.map Token.kind ≠ some k := by
  cases ts with
  | nil => simp
  | cons t ts =>
    intro he
    simp only [List.head?_cons, Option.map_some, Option.some.injEq] at he
    rw [pullAhead, he] at h
    omega

/-- A level takes no token that pulls less than it. -/
theorem Holds.eq_none {level : Grammar.Level} {n : Nat} (h : Holds level n) {ts : List Token}
    (hp : pullAhead ts < n) : (ts.head?.map Token.kind).bind level = none := by
  cases ts with
  | nil => rfl
  | cons t ts =>
    simp only [List.head?_cons, Option.map_some, Option.bind_some]
    cases he : level t.kind with
    | none => rfl
    | some op =>
      obtain ⟨hn, hk⟩ := (h _ _).mp he
      rw [pullAhead, hk, pull_operatorToken] at hp
      omega

/-! ### Operators of one level -/

/-- Beyond the number of tokens ahead, the bound of a chain makes no difference. -/
theorem chain_bound {level : Grammar.Level} {next : Reader Expr}
    (hnext : ∀ {ts e rest}, next ts = .read e rest → rest.length ≤ ts.length) (m : Nat) {k : Nat}
    {ts : List Token} (left : Expr) (hm : ts.length ≤ m) (hk : ts.length ≤ k) :
    chain level next m left ts = chain level next k left ts := by
  induction m generalizing k ts left with
  | zero =>
    have : ts = [] := List.length_eq_zero_iff.mp (by omega)
    subst this
    cases k <;> rfl
  | succ m ih =>
    cases ts with
    | nil => cases k <;> rfl
    | cons t ts =>
      obtain ⟨k, rfl⟩ : ∃ j, k = j + 1 := ⟨k - 1, by simp at hk; omega⟩
      simp only [List.length_cons, Nat.add_le_add_iff_right] at hm hk
      rw [chain, chain, peek_bind, peek_bind, List.head?_cons, Option.map_some, Option.bind_some]
      cases hop : level t.kind with
      | none => rfl
      | some op =>
        simp only
        rw [bind_read (select_cons hop), bind_read (select_cons hop), bind_apply, bind_apply]
        cases hright : next ts with
        | stuck rest => rfl
        | read right rest =>
          have := hnext hright
          exact ih _ (by omega) (by omega)

/-- Reading on at a level with a left operand in hand. -/
def continued (tightest : Reader Expr) (n : Nat) (e : Expr) (rest : List Token) :
    Token.Outcome Expr :=
  match levelsFrom n with
  | [] => .read e rest
  | level :: tighter => chain level (layered tightest tighter) rest.length e rest

private theorem continued_read {tightest : Reader Expr} {n : Nat} {e : Expr} {rest : List Token}
    (h2 : 2 ≤ n) (hn : n ≤ 9) (hp : pullAhead rest < n) :
    continued tightest n e rest = .read e rest := by
  rcases Nat.lt_or_eq_of_le hn with hlt | rfl
  · obtain ⟨level, hlevels, holds⟩ := levelsFrom_eq h2 hlt
    rw [continued, hlevels]
    cases rest with
    | nil => rfl
    | cons t rest =>
      simp only [List.length_cons]
      rw [chain, peek_bind, holds.eq_none hp]
      rfl
  · rfl

private theorem two_le_tightness (op : BinaryOp) : 2 ≤ tightness op := by
  cases op <;> simp [tightness]

/-- At an operator of its own level, a chain takes the operator and its right operand. -/
theorem continued_operator {tightest : Reader Expr} (h : Sound tightest (Operand anyGroups))
    {n : Nat} {op : BinaryOp} {left right : Expr} {o : Token} {ts rest : List Token}
    (h9 : n < 9) (hop : tightness op = n) (ho : o.kind = operatorToken op)
    (hright : layered tightest (levelsFrom (n + 1)) ts = .read right rest) :
    continued tightest n left (o :: ts) = continued tightest n (under op left right) rest := by
  have h2 := two_le_tightness op
  obtain ⟨level, hlevels, holds⟩ := levelsFrom_eq (n := n) (by omega) h9
  have hlevel : level o.kind = some op := (holds _ _).mpr ⟨hop, ho⟩
  have hsound := layered_sound h (9 - (n + 1)) (by omega)
  rw [show 9 - (9 - (n + 1)) = n + 1 by omega] at hsound
  rw [continued, continued, hlevels]
  simp only [List.length_cons]
  rw [chain, peek_bind, List.head?_cons, Option.map_some, Option.bind_some, hlevel]
  simp only
  rw [bind_read (select_cons hlevel), bind_read hright]
  exact chain_bound hsound.length_le _ _ (hsound.length_le hright) (Nat.le_refl _)

/-- With its first operand read, a level reads on from there. -/
theorem layered_eq {tightest : Reader Expr} {n : Nat} {e : Expr} {ts rest : List Token}
    (h2 : 2 ≤ n) (h9 : n < 9) (h : layered tightest (levelsFrom (n + 1)) ts = .read e rest) :
    layered tightest (levelsFrom n) ts = continued tightest n e rest := by
  obtain ⟨level, hlevels, -⟩ := levelsFrom_eq h2 h9
  rw [continued, hlevels, layered, bind_read h]
  rfl

/-! ### Lists between commas -/

section Lists

variable {α : Type} {item : Reader α} {a : α} {as : List α} {ts us rest : List Token} {c : Token}

private theorem commaTail_done (n : Nat) (h : ts.head?.map Token.kind ≠ some .comma) :
    commaTail item n ts = .read [] ts := by
  cases n with
  | zero => rfl
  | succ n =>
    rw [commaTail, peek_bind]
    generalize ts.head?.map Token.kind = ahead at h
    split
    · exact absurd rfl h
    · rfl

private theorem commaTail_more {n : Nat} (hc : c.kind = .comma) (ha : item ts = .read a us)
    (has : commaTail item n us = .read as rest) :
    commaTail item (n + 1) (c :: ts) = .read (a :: as) rest := by
  rw [commaTail, peek_bind, List.head?_cons, Option.map_some, hc]
  simp only
  rw [bind_read (expect_cons hc), bind_read ha, bind_read has]
  rfl

private theorem commaList_read (ha : item ts = .read a us)
    (has : commaTail item us.length us = .read as rest) :
    commaList item ts = .read (a :: as) rest := by
  rw [commaList, bind_read ha, bind_read ((sized_apply _).trans has)]
  rfl

end Lists

/-! ### Expressions -/

/-- The reader of the operands that the operators stand between. -/
def operands (n : Nat) : Reader Expr := sized (operand (expression n))

private theorem operands_sound (n : Nat) : Sound (operands n) (Operand anyGroups) :=
  fun ts e rest hr => operand_sound (expression_sound n) ts.length ts e rest hr

private theorem expression_succ (n : Nat) : expression (n + 1) = (do
    let test ← layered (operands n) (levelsFrom 2)
    if (← peek) = some .question then
      let _ ← expect .question
      let yes ← expression n
      let _ ← expect .colon
      let no ← expression n
      return .cond test yes no (test.span.join no.span)
    else return test) := rfl

private theorem pullAhead_more {k : Kind} {t : Token} {ts : List Token} (h : t.kind = k) :
    pullAhead (t :: ts) = pull k := by
  rw [pullAhead, h]

theorem MoreArguments.pullAhead_eq {ts rest : List Token} {es : List Expr}
    (h : MoreArguments A ts es) (hrest : pullAhead rest = 0) : pullAhead (ts ++ rest) = 0 := by
  cases h with
  | done => exact hrest
  | more hc _ _ => exact pullAhead_more hc

theorem MoreCoordinates.pullAhead_eq {ts rest : List Token} {more : List (Coord Expr)}
    (h : MoreCoordinates A ts more) (hrest : pullAhead rest = 0) : pullAhead (ts ++ rest) = 0 := by
  cases h with
  | done => exact hrest
  | more hc _ _ => exact pullAhead_more hc

private theorem parenthesised_read {α : Type} {inner : Reader α} {a : α} {o c : Token}
    {ts rest : List Token} (ho : o.kind = .lparen) (h : inner ts = .read a (c :: rest))
    (hc : c.kind = .rparen) :
    parenthesised inner (o :: ts) = .read (a, o.span.join c.span) rest := by
  rw [parenthesised, bind_read (expect_cons ho), bind_read h, bind_read (expect_cons hc)]
  rfl

section Names

variable {inner : Reader Expr} {i o : Token} {ts us rest : List Token}

private theorem ident_read (h : i.kind = .ident) : ident (i :: ts) = .read (identOf i) ts := by
  rw [ident, bind_read (expect_cons h)]
  rfl

private theorem atom_ident (h : i.kind = .ident) :
    atom inner (i :: ts) = named inner (i :: ts) := by
  rw [atom, peek_bind, List.head?_cons, Option.map_some, h]

private theorem named_name (h : i.kind = .ident) (hp : pullAhead rest < 10) :
    named inner (i :: rest) = .read (.name (identOf i) i.span) rest := by
  have hparen : rest.head?.map Token.kind ≠ some .lparen := ne_of_pullAhead hp (by decide)
  have hbracket : rest.head?.map Token.kind ≠ some .lbracket := ne_of_pullAhead hp (by decide)
  rw [named, bind_read (ident_read h), peek_bind]
  generalize rest.head?.map Token.kind = ahead at hparen hbracket
  split
  · exact absurd rfl hparen
  · exact absurd rfl hbracket
  · rfl

private theorem named_call {args : List Expr} {parens : Span} (h : i.kind = .ident)
    (ho : o.kind = .lparen)
    (hargs : parenthesised (commaListUntil .rparen inner) (o :: ts) = .read (args, parens) rest) :
    named inner (i :: o :: ts) = .read (.call (identOf i) args (i.span.join parens)) rest := by
  rw [named, bind_read (ident_read h), peek_bind, List.head?_cons, Option.map_some, ho]
  simp only
  rw [bind_read hargs]
  rfl

private theorem named_image {g : Selector Expr} (h : i.kind = .ident) (ho : o.kind = .lbracket)
    (hg : selector inner (o :: ts) = .read g rest) (hp : pullAhead rest < 10) :
    named inner (i :: o :: ts) = .read (.image (identOf i) [g] (i.span.join g.span)) rest := by
  have hnot : rest.head?.map Token.kind ≠ some .lbracket := ne_of_pullAhead hp (by decide)
  rw [named, bind_read (ident_read h), peek_bind, List.head?_cons, Option.map_some, ho]
  simp only
  rw [bind_read hg, peek_bind, if_neg hnot]
  rfl

private theorem named_imageTwice {p : Token} {g k : Selector Expr} (h : i.kind = .ident)
    (ho : o.kind = .lbracket) (hg : selector inner (o :: ts) = .read g (p :: us))
    (hp : p.kind = .lbracket) (hk : selector inner (p :: us) = .read k rest) :
    named inner (i :: o :: ts) = .read (.image (identOf i) [g, k] (i.span.join k.span)) rest := by
  rw [named, bind_read (ident_read h), peek_bind, List.head?_cons, Option.map_some, ho]
  simp only
  rw [bind_read hg, peek_bind, if_pos (by simp [hp]), bind_read hk]
  rfl

end Names

mutual

theorem Expression.complete : ∀ {ts e}, Expression A ts e → ∀ {n rest}, ts.length ≤ n →
    pullAhead rest = 0 → expression n (ts ++ rest) = .read e rest
  | _, _, .operators h, n, rest, hn, hp => by
    have hpos := h.length_pos
    obtain ⟨n, rfl⟩ : ∃ j, n = j + 1 := ⟨n - 1, by omega⟩
    have htest := h.complete hn (show pullAhead rest ≤ 2 by omega) (by omega)
    rw [continued_read (by omega) (by omega) (by omega)] at htest
    have hnot : rest.head?.map Token.kind ≠ some .question :=
      ne_of_pullAhead (n := 1) (by omega) (by decide)
    rw [expression_succ, bind_read htest, peek_bind, if_neg hnot]
    rfl
  | _, _, @Expression.choice _ ts xs ys o c _ _ _ h ho hyes hc hno, n, rest, hn, hp => by
    simp only [List.length_append, List.length_cons] at hn
    obtain ⟨n, rfl⟩ : ∃ j, n = j + 1 := ⟨n - 1, by omega⟩
    have hone : pullAhead (o :: (xs ++ c :: (ys ++ rest))) = 1 := pullAhead_more ho
    have htest := h.complete (n := n) (by omega) (hone.trans_le (by omega)) (by omega)
    rw [continued_read (by omega) (by omega) (by omega)] at htest
    have hyes := hyes.complete (n := n) (by omega)
      (show pullAhead (c :: (ys ++ rest)) = 0 from pullAhead_more hc)
    have hno := hno.complete (n := n) (by omega) hp
    simp only [List.append_assoc, List.cons_append]
    rw [expression_succ, bind_read htest, peek_bind, if_pos (by simp [ho]),
      bind_read (expect_cons ho), bind_read hyes, bind_read (expect_cons hc), bind_read hno]
    rfl

theorem Operators.complete : ∀ {k ts e}, Operators A k ts e → ∀ {n rest}, ts.length ≤ n + 1 →
    pullAhead rest ≤ k → pullAhead rest < 9 →
    layered (operands n) (levelsFrom k) (ts ++ rest) = continued (operands n) k e rest
  | _, _, _, .operand h, n, rest, hn, _, hp => h.complete hn (by simp) hp
  | _, _, _, .tighter h2 h9 h, n, rest, hn, hk, hp => by
    have hfirst := h.complete hn (Nat.le_succ_of_le hk) hp
    rw [continued_read (by omega) (by omega) (by omega)] at hfirst
    exact layered_eq h2 h9 hfirst
  | _, _, _, @Operators.operator _ ts xs o k op _ _ h9 hop hleft ho hright, n, rest, hn, hk, hp => by
    have h2 := two_le_tightness op
    simp only [List.length_append, List.length_cons] at hn
    have hpull : pullAhead (o :: (xs ++ rest)) = k := by
      rw [pullAhead, ho, pull_operatorToken, hop]
    have hleft := hleft.complete (n := n) (by omega) hpull.le (by omega)
    have hright := hright.complete (n := n) (by omega) (Nat.le_succ_of_le hk) hp
    rw [continued_read (by omega) (by omega) (by omega)] at hright
    simp only [List.append_assoc, List.cons_append]
    rw [hleft]
    exact continued_operator (operands_sound n) h9 hop ho hright

theorem Operand.complete : ∀ {ts e}, Operand A ts e → ∀ {n m rest}, ts.length ≤ n + 1 →
    ts.length ≤ m → pullAhead rest < 9 →
    operand (expression n) m (ts ++ rest) = .read e rest
  | _, _, .signed ho h, n, m, rest, hn, hm, hp => by
    simp only [List.length_cons] at hn hm
    obtain ⟨m, rfl⟩ : ∃ j, m = j + 1 := ⟨m - 1, by omega⟩
    have hs := sign_eq_some.mpr ho
    have harg := h.complete (n := n) (m := m) (by omega) (by omega) hp
    rw [List.cons_append, operand, peek_bind, List.head?_cons, Option.map_some, Option.bind_some, hs]
    simp only
    rw [bind_read (select_cons hs), bind_read harg]
    rfl
  | _, _, @Operand.power _ ts xs o _ _ hbase ho h, n, m, rest, hn, hm, hp => by
    simp only [List.length_append, List.length_cons] at hn hm
    obtain ⟨m, rfl⟩ : ∃ j, m = j + 1 := ⟨m - 1, by omega⟩
    have hnine : pullAhead (o :: (xs ++ rest)) = 9 := pullAhead_more ho
    have hatom := hbase.complete (n := n) (by omega) (hnine.trans_lt (by omega))
    have hexponent := h.complete (n := n) (m := m) (by omega) (by omega) hp
    simp only [List.append_assoc, List.cons_append]
    rw [operand, peek_bind, hbase.sign_eq_none]
    simp only
    rw [bind_read hatom, peek_bind, if_pos (by simp [ho]), bind_read (expect_cons ho),
      bind_read hexponent]
    rfl
  | _, _, .primary h, n, m, rest, hn, hm, hp => by
    have hpos := h.length_pos
    obtain ⟨m, rfl⟩ : ∃ j, m = j + 1 := ⟨m - 1, by omega⟩
    have hatom := h.complete (n := n) (by omega) (Nat.lt_succ_of_lt hp)
    have hnot : rest.head?.map Token.kind ≠ some .caret := ne_of_pullAhead hp (by decide)
    rw [operand, peek_bind, h.sign_eq_none]
    simp only
    rw [bind_read hatom, peek_bind, if_neg hnot]
    rfl

theorem Primary.complete : ∀ {ts e}, Primary A ts e → ∀ {n rest}, ts.length ≤ n + 1 →
    pullAhead rest < 10 → atom (expression n) (ts ++ rest) = .read e rest
  | _, _, .number h, n, rest, hn, hp => by
    rw [List.cons_append, atom, peek_bind, List.head?_cons, Option.map_some, h]
    simp only
    rw [bind_read (expect_cons h)]
    rfl
  | _, _, .name h, n, rest, hn, hp => (atom_ident h).trans (named_name h hp)
  | _, _, @Primary.call _ ts o c f args h ho hargs hc, n, rest, hn, hp => by
    simp only [List.length_append, List.length_cons, List.length_nil] at hn
    have hargs := hargs.complete (n := n) rest (by omega) hc (.inl rfl)
    simp only [List.cons_append, List.append_assoc, List.nil_append]
    rw [atom_ident h, named_call h ho (parenthesised_read ho hargs hc)]
  | _, _, @Primary.image _ ts i g h hg _, n, rest, hn, hp => by
    have hread := hg.complete (n := n) rest (by simpa using hn)
    obtain ⟨o, us, rfl, ho⟩ := hg.head
    exact (atom_ident h).trans (named_image h ho hread hp)
  | _, _, @Primary.imageTwice _ ts xs i g k h hg hk _, n, rest, hn, hp => by
    simp only [List.length_append, List.length_cons] at hn
    have hfirst := hg.complete (n := n) (xs ++ rest) (by omega)
    have hsecond := hk.complete (n := n) rest (by omega)
    obtain ⟨o, us, rfl, ho⟩ := hg.head
    obtain ⟨p, vs, rfl, hp⟩ := hk.head
    simp only [List.cons_append, List.append_assoc] at hfirst ⊢
    rw [atom_ident h]
    exact named_imageTwice h ho hfirst hp hsecond
  | _, _, @Primary.list _ ts o c items h hitems hc, n, rest, hn, hp => by
    simp only [List.length_append, List.length_cons, List.length_nil] at hn
    have hitems := hitems.complete (n := n) rest (by omega) hc (.inr rfl)
    simp only [List.cons_append, List.append_assoc, List.nil_append]
    rw [atom, peek_bind, List.head?_cons, Option.map_some, h]
    simp only
    rw [bind_read (expect_cons h), bind_read hitems, bind_read (expect_cons hc)]
    rfl
  | _, _, @Primary.paren _ ts o c e h he hc, n, rest, hn, hp => by
    simp only [List.length_append, List.length_cons, List.length_nil] at hn
    have he := he.complete (n := n) (by omega)
      (show pullAhead (c :: rest) = 0 from pullAhead_more hc)
    simp only [List.cons_append, List.append_assoc, List.nil_append]
    rw [atom, peek_bind, List.head?_cons, Option.map_some, h]
    simp only
    rw [bind_read (parenthesised_read h he hc)]
    rfl

/-- Arguments are read up to the token that closes them. -/
theorem Arguments.complete : ∀ {ts es}, Arguments A ts es → ∀ {n k c} rest, ts.length ≤ n →
    c.kind = k → k = .rparen ∨ k = .rbracket →
    commaListUntil k (expression n) (ts ++ c :: rest) = .read es (c :: rest)
  | _, _, .none, n, k, c, rest, hn, hc, hk => by
    rw [commaListUntil, peek_bind, if_pos (by simp [hc])]
    rfl
  | _, _, @Arguments.some _ ts xs _ _ he hes, n, k, c, rest, hn, hc, hk => by
    simp only [List.length_append] at hn
    have hclose : pullAhead (c :: rest) = 0 := by
      rw [pullAhead, hc]
      rcases hk with rfl | rfl <;> rfl
    have hnot : (c :: rest).head?.map Token.kind ≠ some .comma := by
      rcases hk with rfl | rfl <;> simp [hc]
    have hfirst := he.complete (n := n) (by omega) (hes.pullAhead_eq hclose)
    have hmore := hes.complete (n := n) (m := (xs ++ c :: rest).length) (by omega) (by simp) hclose
      hnot
    have hopen : (ts ++ (xs ++ c :: rest)).head?.map Token.kind ≠ some k :=
      he.head_ne (by rcases hk with rfl | rfl <;> rfl)
    rw [List.append_assoc, commaListUntil, peek_bind, if_neg hopen]
    exact commaList_read hfirst hmore

theorem MoreArguments.complete : ∀ {ts es}, MoreArguments A ts es → ∀ {n m rest},
    ts.length ≤ n → ts.length ≤ m → pullAhead rest = 0 →
    rest.head?.map Token.kind ≠ some .comma →
    commaTail (expression n) m (ts ++ rest) = .read es rest
  | _, _, .done, n, m, rest, _, _, _, hnot => commaTail_done m hnot
  | _, _, @MoreArguments.more _ ts xs c _ _ hc he hes, n, m, rest, hn, hm, hp, hnot => by
    simp only [List.length_append, List.length_cons] at hn hm
    obtain ⟨m, rfl⟩ : ∃ j, m = j + 1 := ⟨m - 1, by omega⟩
    have hfirst := he.complete (n := n) (by omega) (hes.pullAhead_eq hp)
    have hmore := hes.complete (n := n) (m := m) (by omega) (by omega) hp hnot
    rw [List.cons_append, List.append_assoc]
    exact commaTail_more hc hfirst hmore

theorem Group.complete : ∀ {ts g}, Group A ts g → ∀ {n} rest, ts.length ≤ n →
    selector (expression n) (ts ++ rest) = .read g rest
  | _, _, @Group.mk _ ts xs o c x more ho hx hmore hc, n, rest, hn => by
    simp only [List.length_append, List.length_cons, List.length_nil] at hn
    have hclose : pullAhead (c :: rest) = 0 := pullAhead_more hc
    have hnot : (c :: rest).head?.map Token.kind ≠ some .comma := by simp [hc]
    have hfirst := hx.complete (n := n) (by omega) (hmore.pullAhead_eq hclose)
    have htail := hmore.complete (n := n) (m := (xs ++ c :: rest).length) (by omega) (by simp)
      hclose hnot
    simp only [List.cons_append, List.append_assoc, List.nil_append]
    rw [selector, bind_read (expect_cons ho), bind_read (commaList_read hfirst htail),
      bind_read (expect_cons hc)]
    rfl

theorem Coordinate.complete : ∀ {ts x}, Coordinate A ts x → ∀ {n rest}, ts.length ≤ n →
    pullAhead rest = 0 → coord (expression n) (ts ++ rest) = .read x rest
  | _, _, .absolute he, n, rest, hn, hp => by
    have hvalue := he.complete hn hp
    rw [coord, peek_bind, if_neg (he.head_ne rfl), bind_read hvalue]
    rfl
  | _, _, .relative hd he, n, rest, hn, hp => by
    simp only [List.length_cons] at hn
    have hvalue := he.complete (n := n) (by omega) hp
    rw [List.cons_append, coord, peek_bind, if_pos (by simp [hd]), bind_read (expect_cons hd),
      bind_read hvalue]
    rfl

theorem MoreCoordinates.complete : ∀ {ts more}, MoreCoordinates A ts more → ∀ {n m rest},
    ts.length ≤ n → ts.length ≤ m → pullAhead rest = 0 →
    rest.head?.map Token.kind ≠ some .comma →
    commaTail (coord (expression n)) m (ts ++ rest) = .read more rest
  | _, _, .done, n, m, rest, _, _, _, hnot => commaTail_done m hnot
  | _, _, @MoreCoordinates.more _ ts xs c _ _ hc hx hmore, n, m, rest, hn, hm, hp, hnot => by
    simp only [List.length_append, List.length_cons] at hn hm
    obtain ⟨m, rfl⟩ : ∃ j, m = j + 1 := ⟨m - 1, by omega⟩
    have hfirst := hx.complete (n := n) (by omega) (hmore.pullAhead_eq hp)
    have htail := hmore.complete (n := n) (m := m) (by omega) (by omega) hp hnot
    rw [List.cons_append, List.append_assoc]
    exact commaTail_more hc hfirst htail

end

/-! ### Statements -/

theorem Expression.read {ts rest : List Token} {e : Expr} (h : Expression A ts e)
    (hp : pullAhead rest = 0) : expr (ts ++ rest) = .read e rest :=
  h.complete (by simp) hp

theorem Condition.read {ts : List Token} {e : Expr} (h : Condition A ts e) (rest : List Token) :
    condition (ts ++ rest) = .read e rest := by
  cases h with
  | @mk ts o c _ ho he hc =>
    have hinner := he.read (show pullAhead (c :: rest) = 0 from pullAhead_more hc)
    simp only [List.cons_append, List.append_assoc, List.nil_append]
    rw [condition, bind_read (parenthesised_read ho hinner hc)]
    rfl

private theorem header_read {i c kin : Token} {ts : List Token} {source : Source}
    (hi : i.kind = .ident) (hin : kin.kind = .kwIn) (h : Iterated A ts source)
    (hc : c.kind = .rparen) (rest : List Token) :
    header (i :: kin :: (ts ++ c :: rest)) = .read (identOf i, source) (c :: rest) := by
  have hclose : pullAhead (c :: rest) = 0 := pullAhead_more hc
  rw [header, bind_read (ident_read hi), bind_read (expect_cons hin)]
  cases h with
  | list he =>
    rw [bind_read (he.read hclose), peek_bind, if_neg (by simp [hc])]
    rfl
  | @range ts xs d _ _ hlow hd hhigh =>
    have hcolon : pullAhead (d :: (xs ++ c :: rest)) = 0 := pullAhead_more hd
    simp only [List.append_assoc, List.cons_append]
    rw [bind_read (hlow.read hcolon), peek_bind, if_pos (by simp [hd]), bind_read (expect_cons hd),
      bind_read (hhigh.read hclose)]
    rfl

private theorem pullAhead_terminator {t : Token} {ts : List Token} (h : t.isTerminator) :
    pullAhead (t :: ts) = 0 := by
  rw [pullAhead]
  cases hk : t.kind <;> simp [Token.isTerminator, hk, Kind.isTerminator] at h <;> rfl

private theorem terminator_read {t : Token} {ts : List Token} (h : t.isTerminator) :
    select terminator (t :: ts) = .read (t, ()) ts :=
  select_cons (terminator_eq_some.mpr h)

theorem elseAhead_true {ends rest : List Token} {o : Token}
    (hends : ∀ n ∈ ends, n.kind = .newline) (ho : o.kind = .kwElse) :
    elseAhead (ends ++ o :: rest) = .read true rest := by
  have hdrop : (ends ++ o :: rest).dropWhile (fun t => t.kind = .newline) = o :: rest := by
    rw [List.dropWhile_append_of_pos (by simpa using hends)]
    simp [ho]
  unfold elseAhead
  rw [hdrop]
  simp [ho]

theorem elseAhead_false {rest : List Token} (h : elseFollows rest = false) :
    elseAhead rest = .read false rest := by
  cases hr : elseAhead rest with
  | stuck us => exact absurd hr elseAhead_ne_stuck
  | read b us =>
    cases b with
    | false => rw [(elseAhead_eq_false hr).1]
    | true =>
      obtain ⟨ends, o, rfl, hends, ho⟩ := elseAhead_eq_true hr
      rw [elseFollows_newlines hends ho] at h
      cases h

/-- The kinds of token that a statement starts with. -/
def startsStatement (k : Kind) : Bool :=
  k = .ident || k = .kwIf || k = .kwWhile || k = .kwUntil || k = .kwForeach || k = .kwBreakIf ||
    k = .kwBreak || k = .lbrace

theorem Statement.head {ts : List Token} {s : Stmt} (h : Statement A ts s) :
    ∃ t us, ts = t :: us ∧ startsStatement t.kind := by
  cases h with
  | assign hk _ _ _ | cond hk _ _ | condElse hk _ _ _ _ _ _ | foreach hk _ _ _ _ _ _
  | breakIf hk _ _ | leave hk _ | block hk _ _ => exact ⟨_, _, rfl, by simp [startsStatement, hk]⟩
  | @loop _ _ _ kind _ _ hk _ _ =>
    exact ⟨_, _, rfl, by cases kind <;> simp [startsStatement, hk, loopToken]⟩

theorem Statement.length_pos {ts : List Token} {s : Stmt} (h : Statement A ts s) :
    0 < ts.length := by
  obtain ⟨t, us, rfl, -⟩ := h.head
  exact Nat.succ_pos _

/-- Whether a token of this kind may stand first in an entry. -/
def opensEntry (k : Kind) : Bool := k ≠ .rbrace && !k.isTerminator

private theorem opensEntry_of_startsStatement {k : Kind} (h : startsStatement k) :
    opensEntry k := by
  cases k <;> first | rfl | cases h

section Entries

variable {α : Type} {entry : Reader α} {a : α} {as : List α} {ts us rest : List Token} {t : Token}

private theorem entries_done (n : Nat) (h : t.kind = .rbrace) :
    entries entry n (t :: rest) = .read [] (t :: rest) := by
  cases n with
  | zero => rfl
  | succ n => rw [entries, peek_bind, List.head?_cons, Option.map_some, h]; rfl

private theorem entries_terminator {n : Nat} (h : t.isTerminator)
    (has : entries entry n ts = .read as rest) :
    entries entry (n + 1) (t :: ts) = .read as rest := by
  have hskip : (select terminator >>= fun _ => entries entry n) (t :: ts) = .read as rest := by
    rw [bind_read (terminator_read h), has]
  rw [entries, peek_bind, List.head?_cons, Option.map_some]
  simp only [Token.isTerminator, Kind.isTerminator, Bool.or_eq_true, decide_eq_true_eq] at h
  rcases h with h | h <;> rw [h] <;> exact hskip

private theorem entries_entry {n : Nat} (h : opensEntry t.kind) (ha : entry (t :: ts) = .read a us)
    (has : entries entry n us = .read as rest) :
    entries entry (n + 1) (t :: ts) = .read (a :: as) rest := by
  have htake : (do let first ← entry; return first :: (← entries entry n)) (t :: ts) =
      .read (a :: as) rest := by
    rw [bind_read ha, bind_read has]
    rfl
  have hahead : (some t.kind).any opensEntry := h
  rw [entries, peek_bind, List.head?_cons, Option.map_some]
  generalize some t.kind = ahead at hahead
  split
  · cases hahead
  · cases hahead
  · cases hahead
  · exact htake

private theorem braced_read {o c : Token} (ho : o.kind = .lbrace)
    (has : entries entry ts.length ts = .read as (c :: rest)) (hc : c.kind = .rbrace) :
    braced entry (o :: ts) = .read (as, o.span.join c.span) rest := by
  rw [braced, bind_read (expect_cons ho), bind_read ((sized_apply _).trans has),
    bind_read (expect_cons hc)]
  rfl

end Entries

theorem elseFollows_terminator {t : Token} {ts : List Token} (ht : t.isTerminator)
    (h : elseFollows ts = false) : elseFollows (t :: ts) = false := by
  simp only [Token.isTerminator, Kind.isTerminator, Bool.or_eq_true, decide_eq_true_eq] at ht
  rcases ht with ht | ht
  · simp [elseFollows, ht]
  · simpa [elseFollows, ht] using h

theorem elseFollows_of_ne {t : Token} {ts : List Token} (hnewline : t.kind ≠ .newline)
    (helse : t.kind ≠ .kwElse) : elseFollows (t :: ts) = false := by
  simp [elseFollows, hnewline, helse]

/-- No `else` comes first after what a block may hold. -/
theorem Body.elseFollows_eq : ∀ {ts body}, Body A ts body → ∀ {c} rest, c.kind = .rbrace →
    elseFollows (ts ++ c :: rest) = false
  | _, _, .done, _, _, hc => by
    refine elseFollows_of_ne ?_ ?_
    · rw [hc]
      rintro ⟨⟩
    · rw [hc]
      rintro ⟨⟩
  | _, _, .terminator ht h, _, rest, hc => elseFollows_terminator ht (h.elseFollows_eq rest hc)
  | _, _, .statement hs _, c, rest, hc => by
    obtain ⟨t, us, rfl, ht⟩ := hs.head
    refine elseFollows_of_ne ?_ ?_
    · intro hk
      rw [hk] at ht
      cases ht
    · intro hk
      rw [hk] at ht
      cases ht

mutual

/-- A statement is read off whole, unless an `else` could still continue it. -/
theorem Statement.complete : ∀ {ts s}, Statement A ts s → ∀ {n rest}, ts.length ≤ n →
    (endsOpen s → elseFollows rest = false) → statement n (ts ++ rest) = .read s rest
  | _, _, @Statement.assign _ ts o i t op e hi ho he ht, n, rest, hn, _ => by
    obtain ⟨n, rfl⟩ : ∃ j, n = j + 1 := ⟨n - 1, by simp at hn; omega⟩
    have hvalue := he.read (show pullAhead (t :: rest) = 0 from pullAhead_terminator ht)
    simp only [List.cons_append, List.append_assoc, List.nil_append]
    rw [statement, peek_bind, List.head?_cons, Option.map_some, hi]
    simp only
    rw [bind_read (ident_read hi), bind_read (select_cons (assignment_eq_some.mpr ho)),
      bind_read hvalue, bind_read (terminator_read ht)]
    rfl
  | _, _, @Statement.cond _ ts xs k test yes hk htest hyes, n, rest, hn, hopen => by
    simp only [List.length_append, List.length_cons] at hn
    obtain ⟨n, rfl⟩ : ∃ j, n = j + 1 := ⟨n - 1, by omega⟩
    have hnone := hopen rfl
    have hyes := hyes.complete (n := n) (by omega) (fun _ => hnone)
    simp only [List.cons_append, List.append_assoc]
    rw [statement, peek_bind, List.head?_cons, Option.map_some, hk]
    simp only
    rw [bind_read (expect_cons hk), bind_read (htest.read _), bind_read hyes,
      bind_read (elseAhead_false hnone)]
    rfl
  | _, _, @Statement.condElse _ ts xs ys o k test yes no ends hk htest hyes hclosed hends ho hno,
      n, rest, hn, hopen => by
    simp only [List.length_append, List.length_cons] at hn
    obtain ⟨n, rfl⟩ : ∃ j, n = j + 1 := ⟨n - 1, by omega⟩
    -- The `else` ahead is this statement's own: the branch before it could not have taken it.
    have hnone : endsOpen yes → elseFollows (ends ++ o :: (ys ++ rest)) = false := by
      intro h
      rw [hclosed] at h
      cases h
    have hyes := hyes.complete (n := n) (by omega) hnone
    have hno := hno.complete (n := n) (by omega) hopen
    simp only [List.cons_append, List.append_assoc]
    rw [statement, peek_bind, List.head?_cons, Option.map_some, hk]
    simp only
    rw [bind_read (expect_cons hk), bind_read (htest.read _), bind_read hyes,
      bind_read (elseAhead_true hends ho)]
    simp only [if_true]
    rw [bind_read hno]
    rfl
  | _, _, @Statement.loop _ ts xs k kind test body hk htest hbody, n, rest, hn, hopen => by
    simp only [List.length_append, List.length_cons] at hn
    obtain ⟨n, rfl⟩ : ∃ j, n = j + 1 := ⟨n - 1, by omega⟩
    have hbody := hbody.complete (n := n) (by omega) hopen
    simp only [List.cons_append, List.append_assoc]
    rw [statement, peek_bind, List.head?_cons, Option.map_some, hk]
    cases kind <;>
    · simp only [loopToken] at hk ⊢
      rw [bind_read (expect_cons hk), bind_read (htest.read _), bind_read hbody]
      rfl
  | _, _, @Statement.foreach _ ts xs o c i k source body kin hk ho hi hin hsource hc hbody,
      n, rest, hn, hopen => by
    simp only [List.length_append, List.length_cons] at hn
    obtain ⟨n, rfl⟩ : ∃ j, n = j + 1 := ⟨n - 1, by omega⟩
    have hheader := header_read hi hin hsource hc (xs ++ rest)
    have hbody := hbody.complete (n := n) (by omega) hopen
    simp only [List.cons_append, List.append_assoc]
    rw [statement, peek_bind, List.head?_cons, Option.map_some, hk]
    simp only
    rw [bind_read (expect_cons hk), bind_read (parenthesised_read ho hheader hc)]
    simp only
    rw [bind_read hbody]
    rfl
  | _, _, @Statement.breakIf _ ts k t test hk htest ht, n, rest, hn, _ => by
    obtain ⟨n, rfl⟩ : ∃ j, n = j + 1 := ⟨n - 1, by simp at hn; omega⟩
    simp only [List.cons_append, List.append_assoc, List.nil_append]
    rw [statement, peek_bind, List.head?_cons, Option.map_some, hk]
    simp only
    rw [bind_read (expect_cons hk), bind_read (htest.read _), bind_read (terminator_read ht)]
    rfl
  | _, _, .leave hk ht, n, rest, hn, _ => by
    obtain ⟨n, rfl⟩ : ∃ j, n = j + 1 := ⟨n - 1, by simp at hn; omega⟩
    simp only [List.cons_append, List.nil_append]
    rw [statement, peek_bind, List.head?_cons, Option.map_some, hk]
    simp only
    rw [bind_read (expect_cons hk), bind_read (terminator_read ht)]
    rfl
  | _, _, @Statement.block _ ts o c body ho hbody hc, n, rest, hn, _ => by
    simp only [List.length_append, List.length_cons, List.length_nil] at hn
    obtain ⟨n, rfl⟩ : ∃ j, n = j + 1 := ⟨n - 1, by omega⟩
    have hinner := hbody.complete (n := n) (m := (ts ++ c :: rest).length) rest (by omega) (by simp)
      hc
    simp only [List.cons_append, List.append_assoc, List.nil_append]
    rw [statement, peek_bind, List.head?_cons, Option.map_some, ho]
    simp only
    rw [bind_read (braced_read ho hinner hc)]
    rfl

theorem Body.complete : ∀ {ts body}, Body A ts body → ∀ {n m c} rest, ts.length ≤ n →
    ts.length ≤ m → c.kind = .rbrace →
    entries (statement n) m (ts ++ c :: rest) = .read body (c :: rest)
  | _, _, .done, n, m, c, rest, _, _, hc => entries_done m hc
  | _, _, .terminator ht h, n, m, c, rest, hn, hm, hc => by
    simp only [List.length_cons] at hn hm
    obtain ⟨m, rfl⟩ : ∃ j, m = j + 1 := ⟨m - 1, by omega⟩
    exact entries_terminator ht (h.complete rest (by omega) (by omega) hc)
  | _, _, @Body.statement _ ts xs s body hs h, n, m, c, rest, hn, hm, hc => by
    simp only [List.length_append] at hn hm
    have hpos := hs.length_pos
    obtain ⟨m, rfl⟩ : ∃ j, m = j + 1 := ⟨m - 1, by omega⟩
    have hfirst := hs.complete (n := n) (by omega) (fun _ => h.elseFollows_eq rest hc)
    have hmore := h.complete (n := n) (m := m) rest (by omega) (by omega) hc
    obtain ⟨t, us, rfl, ht⟩ := hs.head
    simp only [List.cons_append, List.append_assoc] at hfirst ⊢
    exact entries_entry (opensEntry_of_startsStatement ht) hfirst hmore

end

/-! ### Items -/

theorem ImageEntry.head {ts : List Token} {d : ImageDecl} (h : ImageEntry ts d) :
    ∃ t us, ts = t :: us ∧ t.kind = .ident := by
  cases h with
  | mk hi _ _ _ => exact ⟨_, _, rfl, hi⟩

theorem ImageEntry.read {ts : List Token} {d : ImageDecl} (h : ImageEntry ts d)
    (rest : List Token) : imageDecl (ts ++ rest) = .read d rest := by
  cases h with
  | mk hi ho hr ht =>
    simp only [List.cons_append, List.nil_append]
    rw [imageDecl, bind_read (ident_read hi), bind_read (expect_cons ho),
      bind_read (select_cons (role_eq_some.mpr hr))]
    simp only
    rw [bind_read (terminator_read ht)]
    rfl

theorem ValueEntry.head {ts : List Token} {v : NamedValue} (h : ValueEntry A ts v) :
    ∃ t us, ts = t :: us ∧ t.kind = .ident := by
  cases h with
  | mk hi _ _ _ => exact ⟨_, _, rfl, hi⟩

theorem ValueEntry.read {ts : List Token} {v : NamedValue} (h : ValueEntry A ts v)
    (rest : List Token) : namedValue (ts ++ rest) = .read v rest := by
  cases h with
  | @mk ts o i t e hi ho he ht =>
    have hvalue := he.read (show pullAhead (t :: rest) = 0 from pullAhead_terminator ht)
    simp only [List.cons_append, List.append_assoc, List.nil_append]
    rw [namedValue, bind_read (ident_read hi), bind_read (expect_cons ho), bind_read hvalue,
      bind_read (terminator_read ht)]
    rfl

/-- Entries that start with a name are read up to the brace that closes them. -/
theorem Entries.read {α : Type} {E : List Token → α → Prop} {entry : Reader α}
    (head : ∀ {ts a}, E ts a → ∃ t us, ts = t :: us ∧ t.kind = .ident)
    (read : ∀ {ts a}, E ts a → ∀ rest, entry (ts ++ rest) = .read a rest)
    {ts : List Token} {as : List α} (h : Entries E ts as) {n : Nat} {c : Token}
    (rest : List Token) (hn : ts.length ≤ n) (hc : c.kind = .rbrace) :
    entries entry n (ts ++ c :: rest) = .read as (c :: rest) := by
  induction h generalizing n with
  | done => exact entries_done n hc
  | terminator ht _ ih =>
    simp only [List.length_cons] at hn
    obtain ⟨n, rfl⟩ : ∃ j, n = j + 1 := ⟨n - 1, by omega⟩
    exact entries_terminator ht (ih (by omega))
  | @entry ts xs a as ha _ ih =>
    have hfirst := read ha (xs ++ c :: rest)
    obtain ⟨t, us, rfl, ht⟩ := head ha
    simp only [List.length_append, List.length_cons] at hn
    obtain ⟨n, rfl⟩ : ∃ j, n = j + 1 := ⟨n - 1, by omega⟩
    simp only [List.cons_append, List.append_assoc] at hfirst ⊢
    exact entries_entry (by rw [ht]; rfl) hfirst (ih (by omega))

/-- Whether an item ends in an `if` that could still take an `else`. -/
def itemEndsOpen : Item → Bool
  | .stmt s => endsOpen s
  | _ => false

theorem TopStatement.read {ts : List Token} {i : Item} (h : TopStatement A ts i)
    {rest : List Token} (hopen : itemEndsOpen i → elseFollows rest = false) :
    item (ts ++ rest) = .read i rest := by
  cases h with
  | @images ts o c k decls hk ho hdecls hc =>
    have hinner := hdecls.read ImageEntry.head ImageEntry.read
      (n := (ts ++ c :: rest).length) rest (by simp) hc
    simp only [List.cons_append, List.append_assoc, List.nil_append]
    rw [item, peek_bind, List.head?_cons, Option.map_some, hk]
    simp only
    rw [bind_read (expect_cons hk), bind_read (braced_read ho hinner hc)]
    rfl
  | @init ts o c k values hk ho hvalues hc
  | @options ts o c k values hk ho hvalues hc =>
    have hinner := hvalues.read ValueEntry.head ValueEntry.read
      (n := (ts ++ c :: rest).length) rest (by simp) hc
    simp only [List.cons_append, List.append_assoc, List.nil_append]
    rw [item, peek_bind, List.head?_cons, Option.map_some, hk]
    simp only
    rw [bind_read (expect_cons hk), bind_read (braced_read ho hinner hc)]
    rfl
  | @statement ts s hs =>
    have hread := hs.complete (n := (ts ++ rest).length) (by simp) hopen
    obtain ⟨t, us, rfl, ht⟩ := hs.head
    have hstmt : (do return Item.stmt (← sized Grammar.statement)) (t :: us ++ rest) =
        .read (.stmt s) rest := by
      rw [bind_read ((sized_apply _).trans hread)]
      rfl
    have hahead : (some t.kind).any startsStatement := ht
    rw [item, peek_bind, List.cons_append, List.head?_cons, Option.map_some]
    generalize some t.kind = ahead at hahead
    split
    · cases hahead
    · cases hahead
    · cases hahead
    · exact hstmt

end Script.Derivation

end RasterScript
