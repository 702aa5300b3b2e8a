import RasterScript.Proofs.Script.Completeness
import RasterScript.Proofs.Script.Remainders

/-! What a reader does depends on the tokens up to the one it stops at, that one included, and not
on those after it. The one exception is an `if` that is still open, which looks past line ends for
an `else`. -/
namespace RasterScript

open Token (Kind Reader)

namespace Token

/-- The same outcome before other tokens. -/
def Outcome.leaving {α : Type} (o : Outcome α) (rest : List Token) : Outcome α :=
  match o with
  | .read v _ => .read v rest
  | .stuck _ => .stuck rest

namespace Reader

/-- A reader that succeeds takes at least `c` tokens. -/
def Takes {α : Type} (c : Nat) (r : Reader α) : Prop :=
  ∀ ts v rest, r ts = .read v rest → rest.length + c ≤ ts.length

/-- Two readers, on at most `n` and at most `m` tokens, end alike where the first stops at a token
and the tokens differ only after it. A value `v` asks `F v` of the tokens that are to follow it. -/
structure Agree {α : Type} (F : α → List Token → Prop) (n m : Nat) (r r' : Reader α) : Prop where
  forward : Forward r
  same : ∀ us t xs ys, (us ++ t :: xs).length ≤ n → (us ++ t :: ys).length ≤ m →
    (r (us ++ t :: xs)).rest = t :: xs →
    (∀ v, r (us ++ t :: xs) = .read v (t :: xs) → F v (t :: ys)) →
    r' (us ++ t :: ys) = (r (us ++ t :: xs)).leaving (t :: ys)

/-- Nothing is asked of what follows. -/
def Anything {α : Type} : α → List Token → Prop := fun _ _ => True

variable {α β : Type} {r r' : Reader α} {F : α → List Token → Prop} {G : β → List Token → Prop}
  {n m : Nat}

theorem Takes.expect (k : Kind) : Takes 1 (expect k) := by
  intro ts t rest hr
  obtain ⟨rfl, -⟩ := expect_eq_read.mp hr
  exact le_rfl

theorem Takes.select (g : Kind → Option α) : Takes 1 (select g) := by
  intro ts p rest hr
  obtain ⟨rfl, -⟩ := select_eq_read.mp hr
  exact le_rfl

theorem Takes.ofSound {D : List Token → α → Prop} (h : Sound r D)
    (hpos : ∀ ts a, D ts a → 0 < ts.length) : Takes 1 r := by
  intro ts v rest hr
  obtain ⟨pre, rfl, hpre⟩ := h ts v rest hr
  have := hpos pre v hpre
  rw [List.length_append]
  omega

theorem Forward.takes (h : Forward r) : Takes 0 r := by
  intro ts v rest hr
  have hsuffix := h ts
  rw [hr] at hsuffix
  exact hsuffix.length_le

/-- A value read before more than the last token. -/
theorem Agree.read_append (h : Agree F n m r r') {us ws xs : List Token} (ys : List Token)
    {t : Token} {v : α} (hn : (us ++ (ws ++ t :: xs)).length ≤ n)
    (hm : (us ++ (ws ++ t :: ys)).length ≤ m)
    (hr : r (us ++ (ws ++ t :: xs)) = .read v (ws ++ t :: xs)) (hF : F v (ws ++ t :: ys)) :
    r' (us ++ (ws ++ t :: ys)) = .read v (ws ++ t :: ys) := by
  obtain ⟨s, as, bs, ha, hb⟩ : ∃ s as bs, ws ++ t :: xs = s :: as ∧ ws ++ t :: ys = s :: bs := by
    cases ws with
    | nil => exact ⟨t, xs, ys, rfl, rfl⟩
    | cons s ws => exact ⟨s, ws ++ t :: xs, ws ++ t :: ys, rfl, rfl⟩
  rw [ha] at hr hn
  rw [hb] at hm hF ⊢
  have hsame := h.same us s as bs hn hm (by rw [hr]; rfl) fun v' hv' => by
    rw [hr] at hv'
    cases hv'
    exact hF
  rw [hsame, hr]
  rfl

theorem Agree.mono {F' : α → List Token → Prop} {k l : Nat} (h : Agree F n m r r')
    (hF : ∀ v ts, F' v ts → F v ts) (hk : k ≤ n) (hl : l ≤ m) : Agree F' k l r r' where
  forward := h.forward
  same us t xs ys hn hm hrest hfollow :=
    h.same us t xs ys (hn.trans hk) (hm.trans hl) hrest fun v hv => hF _ _ (hfollow v hv)

theorem Agree.within {k l : Nat} (h : Agree F n m r r') (hk : k ≤ n) (hl : l ≤ m) :
    Agree F k l r r' :=
  h.mono (fun _ _ => id) hk hl

/-- There is a token to stop at. -/
theorem Agree.zero_left (h : Forward r) : Agree F 0 m r r' where
  forward := h
  same us t xs ys hn := by simp at hn

theorem Agree.zero_right (h : Forward r) : Agree F n 0 r r' where
  forward := h
  same us t xs ys _ hm := by simp at hm

theorem Agree.pure (v : α) : Agree F n m (pure v : Reader α) (pure v) where
  forward := .pure v
  same us t xs ys _ _ hrest _ := by
    obtain rfl : us = [] := List.append_left_eq_self.mp hrest
    rfl

theorem Agree.fail : Agree F n m (fail : Reader α) fail where
  forward := .fail
  same us t xs ys _ _ hrest _ := by
    obtain rfl : us = [] := List.append_left_eq_self.mp hrest
    rfl

/-- A reader of one token that does not look past it. -/
theorem Agree.single {g : Token → Option α} (hread : ∀ t ts v, g t = some v →
    r (t :: ts) = .read v ts) (hstuck : ∀ t ts, g t = none → r (t :: ts) = .stuck (t :: ts))
    (h : Forward r) : Agree Anything n m r r where
  forward := h
  same us t xs ys _ _ hrest _ := by
    cases us with
    | nil =>
      cases hg : g t with
      | none => simp only [List.nil_append, hstuck _ _ hg, Outcome.leaving]
      | some v =>
        simp only [List.nil_append, hread _ _ _ hg, Outcome.rest] at hrest
        exact absurd hrest (List.ne_cons_self)
    | cons s us =>
      cases hg : g s with
      | none =>
        simp only [List.cons_append, hstuck _ _ hg, Outcome.rest] at hrest
        have := congrArg List.length hrest
        simp only [List.length_cons, List.length_append] at this
        omega
      | some v =>
        simp only [List.cons_append, hread _ _ _ hg, Outcome.rest] at hrest
        obtain rfl : us = [] := List.append_left_eq_self.mp hrest
        simp only [List.cons_append, List.nil_append, hread _ _ _ hg, Outcome.leaving]

theorem Agree.expect (k : Kind) : Agree Anything n m (expect k) (expect k) := by
  refine .single (g := fun t => if t.kind = k then some t else none) ?_ ?_ (.expect k)
  · intro t ts v hv
    simp only [Option.ite_none_right_eq_some, Option.some.injEq] at hv
    obtain ⟨hk, rfl⟩ := hv
    exact expect_cons hk
  · intro t ts hv
    rw [Reader.expect, if_neg]
    simpa using hv

theorem Agree.select (g : Kind → Option α) : Agree Anything n m (select g) (select g) := by
  refine .single (g := fun t => (g t.kind).map (t, ·)) ?_ ?_ (.select g)
  · intro t ts v hv
    obtain ⟨a, ha, rfl⟩ := Option.map_eq_some_iff.mp hv
    exact select_cons ha
  · intro t ts hv
    rw [Option.map_eq_none_iff] at hv
    rw [Reader.select, hv]

/-- One reader after another. The first takes at least `c` tokens, and what its value asks of the
tokens that follow has to come from what the second does with them. -/
theorem Agree.bind_of {f f' : α → Reader β} {c : Nat} (hr : Agree F (n + c) (m + c) r r')
    (htakes : Takes c r)
    (hF : ∀ ts v ws t xs ys, r ts = .read v (ws ++ t :: xs) → (ws ++ t :: xs).length ≤ n →
      (f v (ws ++ t :: xs)).rest = t :: xs →
      (∀ b, f v (ws ++ t :: xs) = .read b (t :: xs) → G b (t :: ys)) → F v (ws ++ t :: ys))
    (hf : ∀ v, Agree G n m (f v) (f' v)) : Agree G (n + c) (m + c) (r >>= f) (r' >>= f') where
  forward := hr.forward.bind fun v => (hf v).forward
  same us t xs ys hn hm hrest hG := by
    cases hread : r (us ++ t :: xs) with
    | stuck mid =>
      rw [bind_apply, hread] at hrest
      have hsame := hr.same us t xs ys hn hm (by rw [hread]; exact hrest) fun v hv => by
        rw [hread] at hv
        cases hv
      rw [hread] at hsame
      rw [bind_apply, hsame, bind_apply, hread]
      rfl
    | read v mid =>
      have hmid := hr.forward (us ++ t :: xs)
      rw [hread] at hmid
      rw [bind_read hread] at hrest hG ⊢
      -- The first reader stops before the token at which the second does.
      obtain ⟨ws, rfl⟩ : t :: xs <:+ mid := by
        rw [← hrest]
        exact (hf v).forward mid
      obtain ⟨pre, hpre⟩ := hmid
      rw [Outcome.rest, ← List.append_assoc] at hpre
      obtain rfl := List.append_cancel_right hpre
      have hlen := htakes _ _ _ hread
      simp only [List.length_append, List.length_cons] at hlen hn hm
      have hxs : (ws ++ t :: xs).length ≤ n := by
        simp only [List.length_append, List.length_cons]
        omega
      have hys : (ws ++ t :: ys).length ≤ m := by
        simp only [List.length_append, List.length_cons]
        omega
      rw [List.append_assoc] at hread ⊢
      have hfirst := hr.read_append ys
        (by simp only [List.length_append, List.length_cons]; omega)
        (by simp only [List.length_append, List.length_cons]; omega) hread
        (hF _ _ _ _ _ _ hread hxs hrest hG)
      rw [bind_read hfirst]
      exact (hf v).same ws t xs ys hxs hys hrest hG

theorem Agree.bind {f f' : α → Reader β} (hr : Agree Anything n m r r')
    (hf : ∀ v, Agree G n m (f v) (f' v)) : Agree G n m (r >>= f) (r' >>= f') :=
  .bind_of (c := 0) hr hr.forward.takes (fun _ _ _ _ _ _ _ _ _ _ => trivial) hf

/-- After a token there are fewer ahead. -/
theorem Agree.next {f f' : α → Reader β} (hr : Agree Anything (n + 1) (m + 1) r r')
    (htakes : Takes 1 r) (hf : ∀ v, Agree G n m (f v) (f' v)) :
    Agree G (n + 1) (m + 1) (r >>= f) (r' >>= f') :=
  .bind_of hr htakes (fun _ _ _ _ _ _ _ _ _ _ => trivial) hf

theorem Agree.map (g : α → β) (h : Agree F n m r r') (hG : ∀ v ts, G (g v) ts → F v ts) :
    Agree G n m (r >>= fun v => Pure.pure (g v)) (r' >>= fun v => Pure.pure (g v)) := by
  refine .bind_of (c := 0) h h.forward.takes ?_ fun v => .pure (g v)
  intro ts v ws t xs ys _ _ hrest hfollow
  obtain rfl : ws = [] := List.append_left_eq_self.mp hrest
  exact hG v _ (hfollow (g v) rfl)

private theorem rest_map (g : α → β) (ts : List Token) :
    ((r >>= fun v => Pure.pure (g v)) ts).rest = (r ts).rest := by
  rw [bind_apply]
  cases r ts <;> rfl

theorem Agree.peek {f f' : Option Kind → Reader α} (h : ∀ k, Agree F n m (f k) (f' k)) :
    Agree F n m (peek >>= f) (peek >>= f') where
  forward := .bind .peek fun k => (h k).forward
  same us t xs ys hn hm hrest hF := by
    have hhead : (us ++ t :: ys).head?.map kind = (us ++ t :: xs).head?.map kind := by
      cases us <;> rfl
    rw [peek_bind] at hrest hF ⊢
    rw [peek_bind, hhead]
    exact (h _).same us t xs ys hn hm hrest hF

theorem Agree.sized {g g' : Nat → Reader α} (hg : ∀ k, Forward (g k))
    (h : ∀ k ≤ n, ∀ l ≤ m, Agree F k l (g k) (g' l)) : Agree F n m (sized g) (sized g') where
  forward := .sized hg
  same us t xs ys hn hm hrest hF := (h _ hn _ hm).same us t xs ys le_rfl le_rfl hrest hF

end Reader

end Token

namespace Script.Grammar

open Token.Reader Script.Derivation

section Lists

variable {α : Type} {item item' : Reader α} {n m : Nat}

private theorem ident_agree : Agree Anything n m ident ident :=
  (Agree.expect .ident).map _ fun _ _ => id

private theorem ident_takes : Takes 1 ident := by
  intro ts id rest hr
  obtain ⟨i, rfl, -, -⟩ := ident_eq_read.mp hr
  exact le_rfl

private theorem commaTail_agree (h : Agree Anything n m item item') {k l : Nat} (hk : k ≤ n)
    (hl : l ≤ m) : Agree Anything k l (commaTail item k) (commaTail item' l) := by
  induction k generalizing l with
  | zero => exact .zero_left (commaTail_forward h.forward 0)
  | succ k ih =>
    cases l with
    | zero => exact .zero_right (commaTail_forward h.forward _)
    | succ l =>
      refine .peek fun ahead => ?_
      split
      · exact .next (.expect _) (.expect _) fun _ => (h.within (by omega) (by omega)).bind fun _ =>
          (ih (by omega) (by omega)).map _ fun _ _ => id
      · exact .pure _

private theorem commaList_agree (h : Agree Anything n m item item') :
    Agree Anything n m (commaList item) (commaList item') :=
  h.bind fun _ => (Agree.sized (commaTail_forward h.forward) fun _ hk _ hl =>
    commaTail_agree h hk hl).map _ fun _ _ => id

private theorem commaListUntil_agree (close : Kind) (h : Agree Anything n m item item') :
    Agree Anything n m (commaListUntil close item) (commaListUntil close item') := by
  refine .peek fun ahead => ?_
  split
  · exact .pure _
  · exact commaList_agree h

private theorem parenthesised_agree (h : Agree Anything n m item item') :
    Agree Anything (n + 1) (m + 1) (parenthesised item) (parenthesised item') :=
  .next (.expect _) (.expect _) fun _ => h.bind fun _ => (Agree.expect _).map _ fun _ _ => id

end Lists

section Expressions

variable {inner inner' : Reader Expr} {n m : Nat} (h : Agree Anything n m inner inner')
include h

private theorem coord_agree : Agree Anything n m (coord inner) (coord inner') := by
  refine .peek fun ahead => ?_
  split
  · exact (Agree.expect _).bind fun _ => h.map _ fun _ _ => id
  · exact h.map _ fun _ _ => id

private theorem selector_agree : Agree Anything n m (selector inner) (selector inner') :=
  (Agree.expect _).bind fun _ => (commaList_agree (coord_agree h)).bind fun _ =>
    (Agree.expect _).map _ fun _ _ => id

private theorem named_agree : Agree Anything (n + 1) (m + 1) (named inner) (named inner') := by
  refine .next ident_agree ident_takes fun name => .peek fun ahead => ?_
  split
  · have hargs := parenthesised_agree (commaListUntil_agree .rparen h)
    exact (hargs.within (Nat.le_succ n) (Nat.le_succ m)).map _ fun _ _ => id
  · refine (selector_agree h).bind fun _ => .peek fun ahead => ?_
    split
    · exact (selector_agree h).map _ fun _ _ => id
    · exact .pure _
  · exact .pure _

private theorem atom_agree : Agree Anything (n + 1) (m + 1) (atom inner) (atom inner') := by
  refine .peek fun ahead => ?_
  split
  · exact (Agree.expect _).map _ fun _ _ => id
  · exact named_agree h
  · exact .next (.expect _) (.expect _) fun _ => (commaListUntil_agree _ h).bind fun _ =>
      (Agree.expect _).map _ fun _ _ => id
  · exact (parenthesised_agree h).map _ fun _ _ => id
  · exact .fail

private theorem operand_agree {k l : Nat} (hk : k ≤ n + 1) (hl : l ≤ m + 1) :
    Agree Anything k l (operand inner k) (operand inner' l) := by
  induction k generalizing l with
  | zero => exact .zero_left (operand_forward h.forward 0)
  | succ k ih =>
    cases l with
    | zero => exact .zero_right (operand_forward h.forward _)
    | succ l =>
      refine .peek fun ahead => ?_
      split
      · exact .next (.select _) (.select _) fun _ =>
          (ih (by omega) (by omega)).map _ fun _ _ => id
      · refine ((atom_agree h).within hk hl).bind fun base => .peek fun ahead => ?_
        split
        · exact .next (.expect _) (.expect _) fun _ =>
            (ih (by omega) (by omega)).map _ fun _ _ => id
        · exact .pure _

private theorem chain_agree (level : Level) {k l : Nat} (hk : k ≤ n) (hl : l ≤ m) (left : Expr) :
    Agree Anything k l (chain level inner k left) (chain level inner' l left) := by
  induction k generalizing l left with
  | zero => exact .zero_left (chain_forward h.forward level 0 left)
  | succ k ih =>
    cases l with
    | zero => exact .zero_right (chain_forward h.forward level _ left)
    | succ l =>
      refine .peek fun ahead => ?_
      split
      · exact .next (.select _) (.select _) fun _ => (h.within (by omega) (by omega)).bind fun _ =>
          ih (by omega) (by omega) _
      · exact .pure _

private theorem layered_agree (levels : List Level) :
    Agree Anything n m (layered inner levels) (layered inner' levels) := by
  induction levels with
  | nil => exact h
  | cons level levels ih =>
    exact ih.bind fun first => .sized (fun k => chain_forward ih.forward level k first)
      fun _ hk _ hl => chain_agree ih level hk hl first

end Expressions

private theorem expression_agree (n m : Nat) :
    Agree Anything n m (expression n) (expression m) := by
  induction n generalizing m with
  | zero => exact .zero_left (expression_forward 0)
  | succ n ih =>
    cases m with
    | zero => exact .zero_right (expression_forward _)
    | succ m =>
      have htightest : Agree Anything (n + 1) (m + 1) (sized (operand (expression n)))
          (sized (operand (expression m))) :=
        .sized (operand_forward (expression_forward n)) fun _ hk _ hl => operand_agree (ih m) hk hl
      refine (layered_agree htightest levels).bind fun test => .peek fun ahead => ?_
      split
      · exact .next (.expect _) (.expect _) fun _ => (ih m).bind fun _ =>
          (Agree.expect _).bind fun _ => (ih m).map _ fun _ _ => id
      · exact .pure _

private theorem expr_agree {n m : Nat} : Agree Anything n m expr expr :=
  .sized expression_forward fun k _ l _ => expression_agree k l

/-! ### Statements -/

private theorem condition_agree {n m : Nat} : Agree Anything n m condition condition :=
  ((parenthesised_agree expr_agree).within (Nat.le_succ n) (Nat.le_succ m)).map _ fun _ _ => id

private theorem header_agree {n m : Nat} : Agree Anything n m header header := by
  refine ident_agree.bind fun var => (Agree.expect _).bind fun _ => expr_agree.bind fun first =>
    .peek fun ahead => ?_
  split
  · exact (Agree.expect _).bind fun _ => expr_agree.map _ fun _ _ => id
  · exact .pure _

/-- What is still open asks that no `else` follows. -/
def NoElse {α : Type} (opens : α → Bool) (v : α) (rest : List Token) : Prop :=
  opens v → elseFollows rest = false

private theorem elseFollows_congr {ws : List Token} {t : Token}
    (h : ∃ s ∈ ws ++ [t], s.kind ≠ .newline) (xs ys : List Token) :
    elseFollows (ws ++ t :: xs) = elseFollows (ws ++ t :: ys) := by
  obtain ⟨s, hs, hk⟩ := h
  have hfound : ((ws ++ [t]).find? fun t => t.kind ≠ .newline).isSome := by
    rw [List.find?_isSome]
    exact ⟨s, hs, by simpa using hk⟩
  obtain ⟨o, ho⟩ := Option.isSome_iff_exists.mp hfound
  have hall (zs : List Token) : elseFollows (ws ++ t :: zs) = decide (o.kind = .kwElse) := by
    rw [List.append_cons, elseFollows, List.find?_append, ho]
    simp
  rw [hall xs, hall ys]

private theorem elseAhead_agree {n m : Nat} : Agree (NoElse (! ·)) n m elseAhead elseAhead where
  forward := elseAhead_forward
  same us t xs ys _ _ hrest hnone := by
    cases hread : elseAhead (us ++ t :: xs) with
    | stuck rest => exact absurd hread elseAhead_ne_stuck
    | read found rest =>
      rw [hread] at hrest hnone
      obtain rfl : rest = t :: xs := hrest
      cases found with
      | true =>
        obtain ⟨ends, o, hsplit, hends, ho⟩ := elseAhead_eq_true hread
        rw [List.append_cons ends] at hsplit
        obtain rfl := List.append_cancel_right hsplit
        rw [List.append_assoc]
        exact elseAhead_true hends ho
      | false =>
        obtain ⟨hsplit, -⟩ := elseAhead_eq_false hread
        obtain rfl := List.append_left_eq_self.mp hsplit
        exact elseAhead_false (hnone false rfl rfl)

section Entries

variable {α : Type} {entry entry' : Reader α} {n m : Nat}

private theorem entries_newlines {ends : List Token} (hends : ∀ t ∈ ends, t.kind = .newline)
    (hn : ends.length ≤ n) (ts : List Token) :
    entries entry n (ends ++ ts) = entries entry (n - ends.length) ts := by
  induction ends generalizing n with
  | nil => rfl
  | cons t ends ih =>
    obtain ⟨n, rfl⟩ : ∃ k, n = k + 1 := ⟨n - 1, by simp only [List.length_cons] at hn; omega⟩
    have ht : t.kind = .newline := hends t List.mem_cons_self
    rw [List.cons_append, entries, peek_bind, List.head?_cons, Option.map_some, ht]
    simp only
    rw [bind_read (select_cons (a := ()) (by rw [ht]; rfl)),
      ih (fun s hs => hends s (List.mem_cons_of_mem t hs)) (by simpa using hn)]
    simp

/-- Line ends between entries are skipped, so entries do not stop before the last of them. -/
theorem entries_stop (h : Forward entry) {ws xs : List Token} {t : Token}
    (hn : (ws ++ t :: xs).length ≤ n) (hrest : (entries entry n (ws ++ t :: xs)).rest = t :: xs) :
    ∃ s ∈ ws ++ [t], s.kind ≠ .newline := by
  by_contra hline
  push Not at hline
  have hlen : (ws ++ [t]).length ≤ n := by
    simp only [List.length_append, List.length_cons, List.length_nil] at hn ⊢
    omega
  rw [List.append_cons, entries_newlines hline hlen] at hrest
  have hsuffix := entries_forward h (n - (ws ++ [t]).length) xs
  rw [hrest] at hsuffix
  exact absurd hsuffix.length_le (Nat.not_succ_le_self _)

private theorem entries_agree {opens : α → Bool} (h : Agree (NoElse opens) n m entry entry')
    (htakes : Takes 1 entry)
    (hnone : ∀ ts v rest, entry ts = .read v rest → opens v → elseFollows rest = false) {k l : Nat}
    (hk : k ≤ n) (hl : l ≤ m) : Agree Anything k l (entries entry k) (entries entry' l) := by
  induction k generalizing l with
  | zero => exact .zero_left (entries_forward h.forward 0)
  | succ k ih =>
    cases l with
    | zero => exact .zero_right (entries_forward h.forward _)
    | succ l =>
      have hmore := ih (l := l) (by omega) (by omega)
      refine .peek fun ahead => ?_
      split
      · exact .pure _
      · exact .next (.select _) (.select _) fun _ => hmore
      · exact .next (.select _) (.select _) fun _ => hmore
      · refine .bind_of (h.within hk hl) htakes ?_ fun v => hmore.map _ fun _ _ => id
        intro ts v ws t xs ys hread hlen hrest _ hopen
        rw [rest_map] at hrest
        rw [← elseFollows_congr (entries_stop h.forward hlen hrest) xs ys]
        exact hnone _ _ _ hread hopen

private theorem braced_agree {opens : α → Bool} (h : Agree (NoElse opens) n m entry entry')
    (htakes : Takes 1 entry)
    (hnone : ∀ ts v rest, entry ts = .read v rest → opens v → elseFollows rest = false) :
    Agree Anything (n + 1) (m + 1) (braced entry) (braced entry') :=
  .next (.expect _) (.expect _) fun _ =>
    (Agree.sized (entries_forward h.forward) fun _ hk _ hl =>
      entries_agree h htakes hnone hk hl).bind fun _ => (Agree.expect _).map _ fun _ _ => id

end Entries

/-- The two branches of an `if`: with one branch it stays open, with two it is as open as the
second. -/
theorem branches_agree {n m : Nat} (h : Agree (NoElse endsOpen) n m (statement n) (statement m))
    {both : Stmt → Stmt → Stmt} {one : Stmt → Stmt}
    (hboth : ∀ yes no, endsOpen (both yes no) = endsOpen no) (hone : ∀ yes, endsOpen (one yes)) :
    Agree (NoElse endsOpen) n m
      (do
        let yes ← statement n
        if ← elseAhead then
          let no ← statement n
          return both yes no
        else return one yes)
      (do
        let yes ← statement m
        if ← elseAhead then
          let no ← statement m
          return both yes no
        else return one yes) := by
  refine .bind_of (c := 0) h h.forward.takes ?_ fun yes =>
    .bind_of (c := 0) elseAhead_agree elseAhead_forward.takes ?_ fun found => ?_
  · intro ts yes ws t xs ys hread _ hrest hnone hopen
    -- An open first branch stands before no `else`, so the `if` stops after it and is open too.
    have hahead := elseAhead_false ((statement_sound n hread).2 hopen)
    rw [bind_read hahead] at hrest hnone
    obtain rfl : ws = [] := List.append_left_eq_self.mp hrest
    exact hnone (one yes) rfl (hone yes)
  · intro ts found ws t xs ys _ _ hrest hnone hfound
    obtain rfl : found = false := by simpa using hfound
    obtain rfl : ws = [] := List.append_left_eq_self.mp hrest
    exact hnone (one yes) rfl (hone yes)
  · cases found with
    | true => exact h.map (both yes) fun no ts hnone hopen => hnone ((hboth yes no).trans hopen)
    | false => exact .pure _

private theorem statement_agree (n m : Nat) :
    Agree (NoElse endsOpen) n m (statement n) (statement m) := by
  induction n generalizing m with
  | zero => exact .zero_left (statement_forward 0)
  | succ n ih =>
    cases m with
    | zero => exact .zero_right (statement_forward _)
    | succ m =>
      refine .peek fun ahead => ?_
      split
      · exact ident_agree.bind fun _ => (Agree.select _).bind fun _ => expr_agree.bind fun _ =>
          (Agree.select _).map _ fun _ _ _ => trivial
      · exact .next (.expect _) (.expect _) fun _ => condition_agree.bind fun _ =>
          branches_agree (ih m) (fun _ _ => rfl) fun _ => rfl
      · exact .next (.expect _) (.expect _) fun _ => condition_agree.bind fun _ =>
          (ih m).map _ fun _ _ => id
      · exact .next (.expect _) (.expect _) fun _ => condition_agree.bind fun _ =>
          (ih m).map _ fun _ _ => id
      · exact .next (.expect _) (.expect _) fun _ =>
          ((parenthesised_agree header_agree).within (Nat.le_succ n) (Nat.le_succ m)).bind fun _ =>
            (ih m).map _ fun _ _ => id
      · exact .next (.expect _) (.expect _) fun _ => condition_agree.bind fun _ =>
          (Agree.select _).map _ fun _ _ _ => trivial
      · exact .next (.expect _) (.expect _) fun _ => (Agree.select _).map _ fun _ _ _ => trivial
      · have htakes : Takes 1 (statement n) :=
          .ofSound (fun ts s rest hr => (statement_sound n hr).1) fun _ _ => Statement.length_pos
        exact (braced_agree (ih m) htakes fun ts s rest hr => (statement_sound n hr).2).map _
          fun _ _ _ => trivial
      · exact .fail

/-! ### Items -/

private theorem imageDecl_agree {n m : Nat} : Agree Anything n m imageDecl imageDecl :=
  ident_agree.bind fun _ => (Agree.expect _).bind fun _ => (Agree.select _).bind fun _ =>
    (Agree.select _).map _ fun _ _ => id

private theorem namedValue_agree {n m : Nat} : Agree Anything n m namedValue namedValue :=
  ident_agree.bind fun _ => (Agree.expect _).bind fun _ => expr_agree.bind fun _ =>
    (Agree.select _).map _ fun _ _ => id

/-- Braces around entries that leave nothing open. -/
theorem declared_agree {α : Type} {entry : Reader α} (n m : Nat)
    (h : ∀ n m, Agree Anything n m entry entry) (htakes : Takes 1 entry) :
    Agree Anything n m (braced entry) (braced entry) := by
  have hentry : Agree (NoElse fun _ => false) n m entry entry :=
    (h n m).mono (fun _ _ _ => trivial) le_rfl le_rfl
  have hnone (ts : List Token) (v : α) (rest : List Token) : entry ts = .read v rest →
      false = true → elseFollows rest = false := by
    rintro - ⟨⟩
  exact (braced_agree hentry htakes hnone).within (Nat.le_succ n) (Nat.le_succ m)

private theorem item_agree (n m : Nat) : Agree (NoElse itemEndsOpen) n m item item := by
  have himages : Takes 1 imageDecl :=
    .ofSound imageDecl_sound fun ts d h => by cases h; simp
  have hvalues : Takes 1 namedValue :=
    .ofSound namedValue_sound fun ts v h => by cases h; simp
  refine .peek fun ahead => ?_
  split
  · exact (Agree.expect _).bind fun _ =>
      (declared_agree n m (fun _ _ => imageDecl_agree) himages).map _ fun _ _ _ => trivial
  · exact (Agree.expect _).bind fun _ =>
      (declared_agree n m (fun _ _ => namedValue_agree) hvalues).map _ fun _ _ _ => trivial
  · exact (Agree.expect _).bind fun _ =>
      (declared_agree n m (fun _ _ => namedValue_agree) hvalues).map _ fun _ _ _ => trivial
  · exact (Agree.sized statement_forward fun k _ l _ => statement_agree k l).map _ fun _ _ => id

/-- Where the reader of items gets stuck does not depend on the tokens after that place. -/
theorem item_stuck {us xs : List Token} {t : Token} (hr : item (us ++ t :: xs) = .stuck (t :: xs))
    (ys : List Token) : item (us ++ t :: ys) = .stuck (t :: ys) := by
  have hsame := (item_agree _ _).same us t xs ys le_rfl le_rfl (by rw [hr]; rfl) fun v hv => by
    rw [hr] at hv
    cases hv
  rw [hsame, hr]
  rfl

end Script.Grammar

end RasterScript
