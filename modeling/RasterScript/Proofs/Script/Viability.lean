import RasterScript.Proofs.Script.Soundness

/-! Where a reader gets stuck, the tokens that it has taken begin something that the grammar
derives. -/
namespace RasterScript

open Token (Kind Reader)

namespace Token.Reader

variable {α β : Type} {r : Reader α} {D D' : List Token → α → Prop}

/-- One part after the other; what the second may be depends on the value of the first. -/
def Followed (D : List Token → α → Prop) (E : α → List Token → β → Prop) (ts : List Token) (b : β) :
    Prop :=
  ∃ xs ys a, ts = xs ++ ys ∧ D xs a ∧ E a ys b

/-- A reader takes off its tokens what `D` derives, or where it gets stuck the beginning of
something that `D` derives. There is such a thing. -/
structure Viable (r : Reader α) (D : List Token → α → Prop) : Prop where
  sound : Sound r D
  stuck : ∀ ts rest, r ts = .stuck rest → ∃ pre more a, ts = pre ++ rest ∧ D (pre ++ more) a
  exists_derived : ∃ ts a, D ts a

theorem Viable.mono (h : Viable r D) (hD : ∀ ts a, D ts a → D' ts a) : Viable r D' where
  sound ts a rest hr := by
    obtain ⟨pre, rfl, ha⟩ := h.sound ts a rest hr
    exact ⟨pre, rfl, hD _ _ ha⟩
  stuck ts rest hr := by
    obtain ⟨pre, more, a, rfl, ha⟩ := h.stuck ts rest hr
    exact ⟨pre, more, a, rfl, hD _ _ ha⟩
  exists_derived := by
    obtain ⟨ts, a, ha⟩ := h.exists_derived
    exact ⟨ts, a, hD _ _ ha⟩

/-- Of a reader that is sound, only the tokens matter: some value goes with them. -/
theorem Viable.ofAny (hs : Sound r D) (h : Viable r fun ts _ => ∃ a, D ts a) : Viable r D where
  sound := hs
  stuck ts rest hr := by
    obtain ⟨pre, more, _, rfl, a, ha⟩ := h.stuck ts rest hr
    exact ⟨pre, more, a, rfl, ha⟩
  exists_derived := by
    obtain ⟨ts, _, a, ha⟩ := h.exists_derived
    exact ⟨ts, a, ha⟩

theorem Viable.toAny (h : Viable r D) : Viable r fun ts _ => ∃ a, D ts a :=
  h.mono fun _ a ha => ⟨a, ha⟩

theorem Viable.pure {a : α} (h : D [] a) : Viable (pure a : Reader α) D where
  sound ts b rest hr := by
    obtain ⟨rfl, rfl⟩ := pure_eq_read.mp hr
    exact ⟨[], rfl, h⟩
  stuck ts rest hr := by cases hr
  exists_derived := ⟨[], a, h⟩

theorem Viable.bind {E : α → List Token → β → Prop} {f : α → Reader β} (hr : Viable r D)
    (hf : ∀ a, Viable (f a) (E a)) : Viable (r >>= f) (Followed D E) where
  sound ts b rest h := by
    obtain ⟨a, mid, ha, hb⟩ := bind_eq_read.mp h
    obtain ⟨xs, rfl, hx⟩ := hr.sound _ _ _ ha
    obtain ⟨ys, rfl, hy⟩ := (hf a).sound _ _ _ hb
    exact ⟨xs ++ ys, (List.append_assoc ..).symm, xs, ys, a, rfl, hx, hy⟩
  stuck ts rest h := by
    rw [bind_apply] at h
    cases hread : r ts with
    | stuck mid =>
      -- Whatever the first part would have become, some second part fits it.
      rw [hread] at h
      cases h
      obtain ⟨pre, more, a, rfl, ha⟩ := hr.stuck _ _ hread
      obtain ⟨ys, b, hb⟩ := (hf a).exists_derived
      exact ⟨pre, more ++ ys, b, rfl, pre ++ more, ys, a, (List.append_assoc ..).symm, ha, hb⟩
    | read a mid =>
      rw [hread] at h
      obtain ⟨xs, rfl, hx⟩ := hr.sound _ _ _ hread
      obtain ⟨pre, more, b, rfl, hb⟩ := (hf a).stuck _ _ h
      exact ⟨xs ++ pre, more, b, (List.append_assoc ..).symm, xs, pre ++ more, a,
        List.append_assoc .., hx, hb⟩
  exists_derived := by
    obtain ⟨xs, a, ha⟩ := hr.exists_derived
    obtain ⟨ys, b, hb⟩ := (hf a).exists_derived
    exact ⟨xs ++ ys, b, xs, ys, a, rfl, ha, hb⟩

theorem Viable.map (g : α → β) (h : Viable r D) :
    Viable (r >>= fun a => Pure.pure (g a)) fun ts b => ∃ a, D ts a ∧ b = g a := by
  refine (h.bind (E := fun a ts b => ts = [] ∧ b = g a) fun a => .pure ⟨rfl, rfl⟩).mono ?_
  rintro _ _ ⟨xs, _, a, rfl, ha, rfl, rfl⟩
  exact ⟨a, by rwa [List.append_nil], rfl⟩

theorem Viable.fail (h : ∃ ts a, D ts a) : Viable (fail : Reader α) D where
  sound ts a rest hr := by cases hr
  stuck ts rest hr := by
    cases hr
    obtain ⟨more, a, ha⟩ := h
    exact ⟨[], more, a, rfl, ha⟩
  exists_derived := h

/-- What to look at next depends on the token ahead, what is derived does not. -/
theorem Viable.peek {f : Option Kind → Reader α} (h : ∀ k, Viable (f k) D) :
    Viable (peek >>= f) D where
  sound ts := (h _).sound ts
  stuck ts := (h _).stuck ts
  exists_derived := (h none).exists_derived

theorem Viable.sized {g : Nat → Reader α} (h : ∀ n, Viable (g n) D) : Viable (sized g) D where
  sound ts := (h _).sound ts
  stuck ts := (h _).stuck ts
  exists_derived := (h 0).exists_derived

/-- A token of a kind, to go on with where a reader is stuck. -/
def sample (k : Kind) : Token := ⟨k, "", .point 0⟩

theorem Viable.expect (k : Kind) : Viable (expect k) fun ts t => ts = [t] ∧ t.kind = k where
  sound ts t rest hr := by
    obtain ⟨rfl, hk⟩ := expect_eq_read.mp hr
    exact ⟨[t], rfl, rfl, hk⟩
  stuck ts rest hr := by
    refine ⟨[], [sample k], sample k, ?_, rfl, rfl⟩
    cases ts with
    | nil =>
      cases hr
      rfl
    | cons t ts =>
      rw [Reader.expect] at hr
      split at hr
      · cases hr
      · cases hr
        rfl
  exists_derived := ⟨[sample k], sample k, rfl, rfl⟩

theorem Viable.select {g : Kind → Option α} {k : Kind} {a : α} (h : g k = some a) :
    Viable (select g) fun ts p => ts = [p.1] ∧ g p.1.kind = some p.2 where
  sound ts p rest hr := by
    obtain ⟨rfl, hp⟩ := select_eq_read.mp hr
    exact ⟨[p.1], rfl, rfl, hp⟩
  stuck ts rest hr := by
    refine ⟨[], [sample k], (sample k, a), ?_, rfl, h⟩
    cases ts with
    | nil =>
      cases hr
      rfl
    | cons t ts =>
      rw [Reader.select] at hr
      split at hr
      · cases hr
      · cases hr
        rfl
  exists_derived := ⟨[sample k], (sample k, a), rfl, h⟩

end Token.Reader

namespace Script.Derivation

open Token.Reader Grammar

/-! ### Lists -/

section Lists

variable {α : Type} {item : Reader α} {D : List Token → α → Prop} {L : List Token → List α → Prop}

private theorem ident_viable :
    Viable ident fun ts id => ∃ i, ts = [i] ∧ i.kind = .ident ∧ id = identOf i := by
  refine ((Viable.expect .ident).map _).mono ?_
  rintro _ _ ⟨i, ⟨rfl, hi⟩, rfl⟩
  exact ⟨i, rfl, hi, rfl⟩

private theorem terminator_viable :
    Viable (select terminator) fun ts p => ts = [p.1] ∧ p.1.isTerminator := by
  refine (Viable.select (g := terminator) (k := .semicolon) rfl).mono ?_
  rintro _ p ⟨rfl, hp⟩
  exact ⟨rfl, terminator_eq_some.mp hp⟩

private theorem commaTail_viable (h : Viable item D) (done : L [] [])
    (more : ∀ {c ts xs a as}, c.kind = .comma → D ts a → L xs as → L (c :: (ts ++ xs)) (a :: as))
    (n : Nat) : Viable (commaTail item n) L := by
  induction n with
  | zero => exact .pure done
  | succ n ih =>
    refine .peek fun k => ?_
    split
    · refine ((Viable.expect .comma).bind fun _ => h.bind fun a => ih.map (a :: ·)).mono ?_
      rintro _ _ ⟨_, _, c, rfl, ⟨rfl, hc⟩, xs, ys, a, rfl, ha, as, has, rfl⟩
      exact @more c xs ys a as hc ha has
    · exact .pure done

private theorem commaList_viable (h : Viable item D) (done : L [] [])
    (more : ∀ {c ts xs a as}, c.kind = .comma → D ts a → L xs as → L (c :: (ts ++ xs)) (a :: as)) :
    Viable (commaList item) fun ts as =>
      ∃ xs ys a more, ts = xs ++ ys ∧ D xs a ∧ L ys more ∧ as = a :: more := by
  have htail := Viable.sized (commaTail_viable h done more)
  refine (h.bind fun a => htail.map (a :: ·)).mono ?_
  rintro _ _ ⟨xs, ys, a, rfl, ha, as, has, rfl⟩
  exact ⟨xs, ys, a, as, rfl, ha, has, rfl⟩

private theorem entries_viable (h : Viable item D) (n : Nat) :
    Viable (entries item n) (Entries D) := by
  induction n with
  | zero => exact .pure .done
  | succ n ih =>
    have hskip : Viable (select terminator >>= fun _ => entries item n) (Entries D) := by
      refine (terminator_viable.bind fun _ => ih).mono ?_
      rintro _ _ ⟨_, ys, p, rfl, ⟨rfl, hp⟩, has⟩
      exact .terminator hp has
    refine .peek fun k => ?_
    split
    · exact .pure .done
    · exact hskip
    · exact hskip
    · refine (h.bind fun a => ih.map (a :: ·)).mono ?_
      rintro _ _ ⟨xs, ys, a, rfl, ha, as, has, rfl⟩
      exact .entry ha has

private theorem braced_viable (h : Viable item D) :
    Viable (braced item) fun ts p => ∃ o xs c, ts = o :: (xs ++ [c]) ∧ o.kind = .lbrace ∧
      Entries D xs p.1 ∧ c.kind = .rbrace ∧ p.2 = o.span.join c.span := by
  refine ((Viable.expect .lbrace).bind fun o => (Viable.sized (entries_viable h)).bind fun as =>
    (Viable.expect .rbrace).map fun c => (as, o.span.join c.span)).mono ?_
  rintro _ _ ⟨_, _, o, rfl, ⟨rfl, ho⟩, xs, _, as, rfl, has, c, ⟨rfl, hc⟩, rfl⟩
  exact ⟨o, xs, c, rfl, ho, has, hc, rfl⟩

private theorem parenthesised_viable (h : Viable item D) :
    Viable (parenthesised item) fun ts p => ∃ o xs c, ts = o :: (xs ++ [c]) ∧ o.kind = .lparen ∧
      D xs p.1 ∧ c.kind = .rparen ∧ p.2 = o.span.join c.span := by
  refine ((Viable.expect .lparen).bind fun o => h.bind fun a =>
    (Viable.expect .rparen).map fun c => (a, o.span.join c.span)).mono ?_
  rintro _ _ ⟨_, _, o, rfl, ⟨rfl, ho⟩, xs, _, a, rfl, ha, c, ⟨rfl, hc⟩, rfl⟩
  exact ⟨o, xs, c, rfl, ho, ha, hc, rfl⟩

end Lists

/-! ### Expressions -/

section Expressions

variable {inner : Reader Expr} (h : Viable inner (Expression anyGroups))
include h

private theorem commaListUntil_viable (close : Kind) :
    Viable (commaListUntil close inner) (Arguments anyGroups) := by
  refine .peek fun k => ?_
  split
  · exact .pure .none
  · refine (commaList_viable h (L := MoreArguments anyGroups) .done .more).mono ?_
    rintro _ _ ⟨xs, ys, e, es, rfl, he, hes, rfl⟩
    exact .some he hes

private theorem coord_viable : Viable (coord inner) (Coordinate anyGroups) := by
  refine .peek fun k => ?_
  split
  · refine ((Viable.expect .dollar).bind fun d =>
      h.map fun e => (⟨true, e, d.span.join e.span⟩ : Coord Expr)).mono ?_
    rintro _ _ ⟨_, xs, d, rfl, ⟨rfl, hd⟩, e, he, rfl⟩
    exact .relative hd he
  · refine (h.map fun e => (⟨false, e, e.span⟩ : Coord Expr)).mono ?_
    rintro _ _ ⟨e, he, rfl⟩
    exact .absolute he

private theorem selector_viable : Viable (selector inner) (Group anyGroups) := by
  refine ((Viable.expect .lbracket).bind fun o =>
    (commaList_viable (coord_viable h) (L := MoreCoordinates anyGroups) .done .more).bind fun xs =>
      (Viable.expect .rbracket).map fun c =>
        (⟨xs, o.span.join c.span⟩ : Selector Expr)).mono ?_
  rintro _ _ ⟨_, _, o, rfl, ⟨rfl, ho⟩, _, _, _, rfl, ⟨xs, ys, x, more, rfl, hx, hmore, rfl⟩, c,
    ⟨rfl, hc⟩, rfl⟩
  rw [List.append_assoc]
  exact .mk ho hx hmore hc

private theorem named_viable : Viable (named inner) (Primary anyGroups) := by
  refine (ident_viable.bind (E := fun id ts e =>
    ∀ i, i.kind = .ident → id = identOf i → Primary anyGroups (i :: ts) e)
      fun id => .peek fun k => ?_).mono ?_
  · split
    · refine ((parenthesised_viable (commaListUntil_viable h .rparen)).map fun p =>
        Expr.call id p.1 (id.span.join p.2)).mono ?_
      rintro _ _ ⟨⟨args, parens⟩, ⟨o, xs, c, rfl, ho, hargs, hc, rfl⟩, rfl⟩ i hi rfl
      exact .call hi ho hargs hc
    · refine ((selector_viable h).bind (E := fun g ts e => ∀ i xs, i.kind = .ident →
        id = identOf i → Group anyGroups xs g → Primary anyGroups (i :: (xs ++ ts)) e)
          fun g => .peek fun k => ?_).mono ?_
      · split
        · refine ((selector_viable h).map fun g' =>
            Expr.image id [g, g'] (id.span.join g'.span)).mono ?_
          rintro _ _ ⟨g', hg', rfl⟩ i xs hi rfl hg
          exact .imageTwice hi hg hg' trivial
        · refine .pure ?_
          rintro i xs hi rfl hg
          rw [List.append_nil]
          exact .image hi hg trivial
      · rintro _ _ ⟨xs, ys, g, rfl, hg, he⟩ i hi hid
        exact he i xs hi hid hg
    · refine .pure ?_
      rintro i hi rfl
      exact .name hi
  · rintro _ _ ⟨_, ts, _, rfl, ⟨i, rfl, hi, rfl⟩, he⟩
    exact he i hi rfl

private theorem atom_viable : Viable (atom inner) (Primary anyGroups) := by
  refine .peek fun k => ?_
  split
  · refine ((Viable.expect .number).map fun t => Expr.number t.value t.span).mono ?_
    rintro _ _ ⟨t, ⟨rfl, ht⟩, rfl⟩
    exact .number ht
  · exact named_viable h
  · refine ((Viable.expect .lbracket).bind fun o => (commaListUntil_viable h .rbracket).bind
      fun items => (Viable.expect .rbracket).map fun c =>
        Expr.list items (o.span.join c.span)).mono ?_
    rintro _ _ ⟨_, _, o, rfl, ⟨rfl, ho⟩, xs, _, items, rfl, hitems, c, ⟨rfl, hc⟩, rfl⟩
    exact .list ho hitems hc
  · refine ((parenthesised_viable h).map fun p => p.1.withSpan p.2).mono ?_
    rintro _ _ ⟨⟨e, parens⟩, ⟨o, xs, c, rfl, ho, he, hc, rfl⟩, rfl⟩
    exact .paren ho he hc
  · exact .fail ⟨[sample .number], _, .number rfl⟩

private theorem operand_viable (n : Nat) : Viable (operand inner n) (Operand anyGroups) := by
  induction n with
  | zero => exact .fail ⟨[sample .number], _, .primary (.number rfl)⟩
  | succ n ih =>
    refine .ofAny (operand_sound h.sound (n + 1)) (.peek fun k => ?_)
    split
    · refine ((Viable.select (g := sign) (k := .minus) rfl).bind fun p =>
        ih.map fun e => Expr.unary _ e (p.1.span.join e.span)).mono ?_
      rintro _ _ ⟨_, xs, ⟨o, op⟩, rfl, ⟨rfl, ho⟩, e, he, rfl⟩
      exact ⟨_, .signed (sign_eq_some.mp ho) he⟩
    · refine ((atom_viable h).bind (E := fun base ts e => ∀ xs, Primary anyGroups xs base →
        Operand anyGroups (xs ++ ts) e) fun base => .peek fun k => ?_).mono ?_
      · split
        · refine ((Viable.expect .caret).bind fun _ => ih.map (joined .pow base)).mono ?_
          rintro _ _ ⟨_, ys, o, rfl, ⟨rfl, ho⟩, e, he, rfl⟩ xs hbase
          exact .power hbase ho he
        · refine .pure fun xs hbase => ?_
          rw [List.append_nil]
          exact .primary hbase
      · rintro _ _ ⟨xs, ys, base, rfl, hbase, he⟩
        exact ⟨_, he xs hbase⟩

omit h in
/-- What a chain takes goes on from any operand of its level. -/
theorem chain_viable {level : Grammar.Level} {next : Reader Expr} {n : Nat} (h9 : n < 9)
    (holds : Holds level n) (h : Viable next (Operators anyGroups (n + 1))) (m : Nat)
    (left : Expr) : Viable (chain level next m left) fun ts _ =>
      ∀ ls l, Operators anyGroups n ls l → ∃ e, Operators anyGroups n (ls ++ ts) e := by
  have hnone (left : Expr) : Viable (pure left : Reader Expr) fun ts _ =>
      ∀ ls l, Operators anyGroups n ls l → ∃ e, Operators anyGroups n (ls ++ ts) e := by
    refine .pure fun ls l hl => ⟨l, ?_⟩
    rwa [List.append_nil]
  induction m generalizing left with
  | zero => exact hnone left
  | succ m ih =>
    refine .peek fun k => ?_
    split
    · next op hop =>
      obtain ⟨k, -, hk⟩ := Option.bind_eq_some_iff.mp hop
      refine ((Viable.select hk).bind fun _ => h.bind fun right =>
        ih (joined op left right)).mono ?_
      rintro _ _ ⟨_, _, ⟨o, op⟩, rfl, ⟨rfl, ho⟩, xs, ys, right, rfl, hx, hrest⟩ ls l hl
      obtain ⟨hn, ho⟩ := (holds _ _).mp ho
      obtain ⟨e, he⟩ := hrest _ _ (.operator h9 hn hl ho hx)
      exact ⟨e, by simpa using he⟩
    · exact hnone left

omit h in
private theorem layered_viable {tightest : Reader Expr} (h : Viable tightest (Operand anyGroups))
    (d : Nat) (hd : d ≤ 7) :
    Viable (layered tightest (levelsFrom (9 - d))) (Operators anyGroups (9 - d)) := by
  induction d with
  | zero => exact h.mono fun _ _ => .operand
  | succ d ih =>
    obtain ⟨level, hlevels, holds⟩ := levelsFrom_eq (n := 9 - (d + 1)) (by omega) (by omega)
    have hnext := ih (by omega)
    refine .ofAny (layered_sound h.sound (d + 1) hd) ?_
    rw [show 9 - d = 9 - (d + 1) + 1 by omega] at hnext
    rw [hlevels]
    refine (hnext.bind fun first => .sized fun n =>
      chain_viable (by omega) holds hnext n first).mono ?_
    rintro _ _ ⟨xs, ys, first, rfl, hx, hrest⟩
    exact hrest _ _ (.tighter (by omega) (by omega) hx)

end Expressions

theorem Operand.operators {A : Groups} {ts : List Token} {e : Expr} (h : Operand A ts e) (d : Nat)
    (hd : d ≤ 7) : Operators A (9 - d) ts e := by
  induction d with
  | zero => exact .operand h
  | succ d ih =>
    have hnext := ih (by omega)
    rw [show 9 - d = 9 - (d + 1) + 1 by omega] at hnext
    exact .tighter (by omega) (by omega) hnext

private theorem expression_viable (n : Nat) : Viable (expression n) (Expression anyGroups) := by
  induction n with
  | zero =>
    exact .fail ⟨[sample .number], _,
      .operators ((Operand.primary (.number rfl)).operators 7 le_rfl)⟩
  | succ n ih =>
    refine ((layered_viable (.sized (operand_viable ih)) 7 le_rfl).bind (E := fun test ts e =>
      ∀ xs, Operators anyGroups 2 xs test → Expression anyGroups (xs ++ ts) e)
        fun test => .peek fun k => ?_).mono ?_
    · split
      · refine ((Viable.expect .question).bind fun _ => ih.bind fun yes =>
          (Viable.expect .colon).bind fun _ => ih.map fun no =>
            Expr.cond test yes no (test.span.join no.span)).mono ?_
        rintro _ _ ⟨_, _, o, rfl, ⟨rfl, ho⟩, ys, _, yes, rfl, hy, _, zs, c, rfl, ⟨rfl, hc⟩, no, hz,
          rfl⟩ xs hx
        exact .choice hx ho hy hc hz
      · refine .pure fun xs hx => ?_
        rw [List.append_nil]
        exact .operators hx
    · rintro _ _ ⟨xs, ys, test, rfl, hx, he⟩
      exact he xs hx

private theorem expr_viable : Viable expr (Expression anyGroups) :=
  .sized expression_viable

/-! ### Statements -/

private theorem condition_viable : Viable condition (Condition anyGroups) := by
  refine ((parenthesised_viable expr_viable).map fun p => p.1).mono ?_
  rintro _ _ ⟨_, ⟨o, xs, c, rfl, ho, he, hc, -⟩, rfl⟩
  exact .mk ho he hc

private theorem header_viable : Viable header fun ts p =>
    ∃ i kin xs, ts = i :: kin :: xs ∧ i.kind = .ident ∧ kin.kind = .kwIn ∧ p.1 = identOf i ∧
      Iterated anyGroups xs p.2 := by
  refine (ident_viable.bind fun var => (Viable.expect .kwIn).bind fun _ => expr_viable.bind
    (E := fun first ts p => p.1 = var ∧
      ∀ xs, Expression anyGroups xs first → Iterated anyGroups (xs ++ ts) p.2)
      fun first => .peek fun k => ?_).mono ?_
  · split
    · refine ((Viable.expect .colon).bind fun _ => expr_viable.map fun high =>
        (var, Source.range first high)).mono ?_
      rintro _ _ ⟨_, ys, c, rfl, ⟨rfl, hc⟩, high, hy, rfl⟩
      exact ⟨rfl, fun xs hx => .range hx hc hy⟩
    · refine .pure ⟨rfl, fun xs hx => ?_⟩
      rw [List.append_nil]
      exact .list hx
  · rintro _ p ⟨_, _, _, rfl, ⟨i, rfl, hi, rfl⟩, _, _, kin, rfl, ⟨rfl, hkin⟩, xs, ys, first, rfl,
      hx, hp, hrest⟩
    exact ⟨i, kin, xs ++ ys, rfl, hi, hkin, hp, hrest xs hx⟩

/-- What stands after the test of an `if`. -/
def Branches (ts : List Token) : Prop :=
  ∀ k xs test, k.kind = .kwIf → Condition anyGroups xs test →
    ∃ s, Statement anyGroups (k :: (xs ++ ts)) s

theorem Branches.one {ys : List Token} {yes : Stmt} (hy : Statement anyGroups ys yes) :
    Branches ys :=
  fun _ _ _ hk hx => ⟨_, .cond hk hx hy⟩

/-- The `else` belongs to this `if`, since its reader went on to it. -/
theorem Branches.both {n : Nat} {ts ys zs ends rest : List Token} {o : Token} {yes no : Stmt}
    (hr : statement n ts = .read yes (ends ++ o :: rest)) (hy : Statement anyGroups ys yes)
    (hends : ∀ n ∈ ends, n.kind = .newline) (ho : o.kind = .kwElse)
    (hz : Statement anyGroups zs no) : Branches (ys ++ (ends ++ o :: zs)) :=
  fun _ _ _ hk hx => ⟨_, .condElse hk hx hy (endsOpen_eq_false (statement_sound n hr).2 hends ho)
    hends ho hz⟩

private theorem branches_viable {n : Nat} (h : Viable (statement n) (Statement anyGroups))
    (both : Stmt → Stmt → Stmt) (one : Stmt → Stmt) : Viable (do
      let yes ← statement n
      if ← elseAhead then
        let no ← statement n
        return both yes no
      else return one yes) fun ts _ => Branches ts where
  sound ts s rest hr := by
    simp only [bind_eq_read] at hr
    obtain ⟨yes, us, hyes, found, vs, helse, hr⟩ := hr
    obtain ⟨ys, rfl, hy⟩ := h.sound _ _ _ hyes
    cases found with
    | true =>
      simp only [if_true, bind_eq_read, pure_eq_read] at hr
      obtain ⟨no, ws, hno, -, rfl⟩ := hr
      obtain ⟨ends, o, rfl, hends, ho⟩ := elseAhead_eq_true helse
      obtain ⟨zs, rfl, hz⟩ := h.sound _ _ _ hno
      exact ⟨ys ++ (ends ++ o :: zs), by simp, .both hyes hy hends ho hz⟩
    | false =>
      simp only [Bool.false_eq_true, if_false, pure_eq_read] at hr
      obtain ⟨-, rfl⟩ := hr
      obtain ⟨rfl, -⟩ := elseAhead_eq_false helse
      exact ⟨ys, rfl, .one hy⟩
  stuck ts rest hr := by
    rw [bind_apply] at hr
    cases hyes : statement n ts with
    | stuck mid =>
      rw [hyes] at hr
      cases hr
      -- What completes the first branch completes the `if`, without an `else`.
      obtain ⟨pre, more, yes, rfl, hy⟩ := h.stuck _ _ hyes
      exact ⟨pre, more, yes, rfl, .one hy⟩
    | read yes us =>
      rw [hyes] at hr
      obtain ⟨ys, rfl, hy⟩ := h.sound _ _ _ hyes
      simp only [bind_apply] at hr
      cases helse : elseAhead us with
      | stuck mid => exact absurd helse elseAhead_ne_stuck
      | read found vs =>
        rw [helse] at hr
        cases found with
        | false => cases hr
        | true =>
          obtain ⟨ends, o, rfl, hends, ho⟩ := elseAhead_eq_true helse
          have hno := h.map (both yes)
          obtain ⟨pre, more, -, rfl, no, hz, -⟩ := hno.stuck _ _ hr
          have hall := Branches.both hyes hy hends ho hz
          exact ⟨ys ++ (ends ++ o :: pre), more, no, by simp, by simpa using hall⟩
  exists_derived := by
    obtain ⟨ts, s, hs⟩ := h.exists_derived
    exact ⟨ts, s, .one hs⟩

private theorem loop_viable {n : Nat} (h : Viable (statement n) (Statement anyGroups))
    (kind : LoopKind) : Viable (do
      let first ← expect (loopToken kind)
      let test ← condition
      let body ← statement n
      return Stmt.loop kind test body (first.span.join body.span))
      fun ts _ => ∃ s, Statement anyGroups ts s := by
  refine ((Viable.expect (loopToken kind)).bind fun first => condition_viable.bind fun test =>
    h.map fun body => Stmt.loop kind test body (first.span.join body.span)).mono ?_
  rintro _ _ ⟨_, _, k, rfl, ⟨rfl, hk⟩, xs, ys, test, rfl, hx, body, hy, rfl⟩
  have hall := Statement.loop hk hx hy
  exact ⟨_, hall⟩

private theorem statement_viable (n : Nat) : Viable (statement n) (Statement anyGroups) := by
  have hsome : ∃ ts s, Statement anyGroups ts s :=
    ⟨[sample .kwBreak, sample .semicolon], _, .leave rfl rfl⟩
  induction n with
  | zero => exact .fail hsome
  | succ n ih =>
    refine .ofAny (fun ts s rest hr => (statement_sound (n + 1) hr).1) (.peek fun k => ?_)
    split
    · refine (ident_viable.bind fun target => (Viable.select (g := assignment) (k := .assign)
        rfl).bind fun p => expr_viable.bind fun value => terminator_viable.map fun last =>
          Stmt.assign target p.2 value (target.span.join last.1.span)).mono ?_
      rintro _ _ ⟨_, _, _, rfl, ⟨i, rfl, hi, rfl⟩, _, _, ⟨o, op⟩, rfl, ⟨rfl, ho⟩, xs, _, e, rfl, hx,
        ⟨t, _⟩, ⟨rfl, ht⟩, rfl⟩
      exact ⟨_, .assign hi (assignment_eq_some.mp ho) hx ht⟩
    · refine ((Viable.expect .kwIf).bind fun first => condition_viable.bind fun test =>
        branches_viable ih (fun yes no => .cond test yes (some no) (first.span.join no.span))
          fun yes => .cond test yes none (first.span.join yes.span)).mono ?_
      rintro _ _ ⟨_, _, k, rfl, ⟨rfl, hk⟩, xs, ys, test, rfl, hx, hrest⟩
      exact hrest k xs test hk hx
    · exact loop_viable ih .whileTrue
    · exact loop_viable ih .untilTrue
    · refine ((Viable.expect .kwForeach).bind fun first => (parenthesised_viable
        header_viable).bind fun p => ih.map fun body =>
          Stmt.foreach p.1.1 p.1.2 body (first.span.join body.span)).mono ?_
      rintro _ _ ⟨_, _, k, rfl, ⟨rfl, hk⟩, _, ys, ⟨⟨var, source⟩, parens⟩, rfl,
        ⟨o, _, c, rfl, ho, ⟨i, kin, xs, rfl, hi, hkin, -, hx⟩, hc, -⟩, body, hy, rfl⟩
      exact ⟨_, by simpa using Statement.foreach hk ho hi hkin hx hc hy⟩
    · refine ((Viable.expect .kwBreakIf).bind fun first => condition_viable.bind fun test =>
        terminator_viable.map fun last => Stmt.breakIf test (first.span.join last.1.span)).mono ?_
      rintro _ _ ⟨_, _, k, rfl, ⟨rfl, hk⟩, xs, _, test, rfl, hx, ⟨t, _⟩, ⟨rfl, ht⟩, rfl⟩
      exact ⟨_, .breakIf hk hx ht⟩
    · refine ((Viable.expect .kwBreak).bind fun first => terminator_viable.map fun last =>
        Stmt.leave (first.span.join last.1.span)).mono ?_
      rintro _ _ ⟨_, _, k, rfl, ⟨rfl, hk⟩, ⟨t, _⟩, ⟨rfl, ht⟩, rfl⟩
      exact ⟨_, .leave hk ht⟩
    · refine ((braced_viable ih).map fun p => Stmt.block p.1 p.2).mono ?_
      rintro _ _ ⟨⟨body, _⟩, ⟨o, xs, c, rfl, ho, hx, hc, -⟩, rfl⟩
      exact ⟨_, .block ho (.ofEntries hx) hc⟩
    · exact (Viable.fail hsome).toAny

/-! ### Items -/

private theorem imageDecl_viable : Viable imageDecl ImageEntry := by
  refine (ident_viable.bind fun id => (Viable.expect .assign).bind fun _ =>
    (Viable.select (g := role) (k := .kwRead) rfl).bind fun p => terminator_viable.map fun last =>
      (⟨id, p.2, id.span.join last.1.span⟩ : ImageDecl)).mono ?_
  rintro _ _ ⟨_, _, _, rfl, ⟨i, rfl, hi, rfl⟩, _, _, o, rfl, ⟨rfl, ho⟩, _, _, ⟨r, role⟩, rfl,
    ⟨rfl, hr⟩, ⟨t, _⟩, ⟨rfl, ht⟩, rfl⟩
  exact .mk hi ho (role_eq_some.mp hr) ht

private theorem namedValue_viable : Viable namedValue (ValueEntry anyGroups) := by
  refine (ident_viable.bind fun id => (Viable.expect .assign).bind fun _ => expr_viable.bind
    fun value => terminator_viable.map fun _ => (⟨id, value⟩ : NamedValue)).mono ?_
  rintro _ _ ⟨_, _, _, rfl, ⟨i, rfl, hi, rfl⟩, _, _, o, rfl, ⟨rfl, ho⟩, xs, _, e, rfl, hx, ⟨t, _⟩,
    ⟨rfl, ht⟩, rfl⟩
  exact .mk hi ho hx ht

/-- Wherever the reader of items stops, it has taken an item or the beginning of one. -/
theorem item_viable : Viable item (TopStatement anyGroups) := by
  refine .peek fun k => ?_
  split
  · refine ((Viable.expect .kwImages).bind fun first => (braced_viable imageDecl_viable).map
      fun p => Item.images p.1 (first.span.join p.2)).mono ?_
    rintro _ _ ⟨_, _, k, rfl, ⟨rfl, hk⟩, ⟨decls, _⟩, ⟨o, xs, c, rfl, ho, hx, hc, rfl⟩, rfl⟩
    exact .images hk ho hx hc
  · refine ((Viable.expect .kwInit).bind fun first => (braced_viable namedValue_viable).map
      fun p => Item.init p.1 (first.span.join p.2)).mono ?_
    rintro _ _ ⟨_, _, k, rfl, ⟨rfl, hk⟩, ⟨values, _⟩, ⟨o, xs, c, rfl, ho, hx, hc, rfl⟩, rfl⟩
    exact .init hk ho hx hc
  · refine ((Viable.expect .kwOptions).bind fun first => (braced_viable namedValue_viable).map
      fun p => Item.options p.1 (first.span.join p.2)).mono ?_
    rintro _ _ ⟨_, _, k, rfl, ⟨rfl, hk⟩, ⟨values, _⟩, ⟨o, xs, c, rfl, ho, hx, hc, rfl⟩, rfl⟩
    exact .options hk ho hx hc
  · refine ((Viable.sized statement_viable).map Item.stmt).mono ?_
    rintro _ _ ⟨s, hs, rfl⟩
    exact .statement hs

end Script.Derivation

end RasterScript
