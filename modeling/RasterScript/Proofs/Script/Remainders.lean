import Mathlib.Data.List.Infix
import RasterScript.Script.Grammar

/-! What readers leave: a last part of their tokens, so that the token at which one gets stuck is one
of those it was given. -/
namespace RasterScript

open Token (Kind)

namespace Token

/-- The tokens that a reading leaves. -/
def Outcome.rest {α : Type} : Outcome α → List Token
  | .read _ rest => rest
  | .stuck rest => rest

namespace Reader

/-- A reader leaves a last part of its tokens, whether it gets stuck or not. -/
def Forward {α : Type} (r : Reader α) : Prop := ∀ ts, (r ts).rest <:+ ts

variable {α β : Type} {r : Reader α}

theorem Forward.pure (a : α) : Forward (pure a : Reader α) := fun _ => List.suffix_rfl

theorem Forward.bind {f : α → Reader β} (hr : Forward r) (hf : ∀ a, Forward (f a)) :
    Forward (r >>= f) := by
  intro ts
  have hfirst := hr ts
  rw [bind_apply]
  cases hread : r ts with
  | stuck rest =>
    rw [hread] at hfirst
    exact hfirst
  | read a rest =>
    rw [hread] at hfirst
    exact (hf a rest).trans hfirst

theorem Forward.fail : Forward (fail : Reader α) := fun _ => List.suffix_rfl

theorem Forward.peek : Forward peek := fun _ => List.suffix_rfl

theorem Forward.expect (k : Kind) : Forward (expect k) := by
  intro ts
  cases ts with
  | nil => exact List.suffix_rfl
  | cons t ts =>
    rw [Reader.expect]
    split
    · exact List.suffix_cons t ts
    · exact List.suffix_rfl

theorem Forward.select (g : Kind → Option α) : Forward (select g) := by
  intro ts
  cases ts with
  | nil => exact List.suffix_rfl
  | cons t ts =>
    rw [Reader.select]
    split
    · exact List.suffix_cons t ts
    · exact List.suffix_rfl

theorem Forward.sized {g : Nat → Reader α} (h : ∀ n, Forward (g n)) : Forward (sized g) :=
  fun ts => h ts.length ts

end Reader

end Token

namespace Script.Grammar

open Token Token.Reader

section Lists

variable {α : Type} {item : Reader α}

private theorem ident_forward : Forward ident := .bind (.expect _) fun _ => .pure _

theorem commaTail_forward (h : Forward item) (n : Nat) : Forward (commaTail item n) := by
  induction n with
  | zero => exact .pure _
  | succ n ih =>
    refine .bind .peek fun k => ?_
    split
    · exact .bind (.expect _) fun _ => .bind h fun _ => .bind ih fun _ => .pure _
    · exact .pure _

private theorem commaList_forward (h : Forward item) : Forward (commaList item) :=
  .bind h fun _ => .bind (.sized (commaTail_forward h)) fun _ => .pure _

private theorem commaListUntil_forward (close : Kind) (h : Forward item) :
    Forward (commaListUntil close item) := by
  refine .bind .peek fun k => ?_
  split
  · exact .pure _
  · exact commaList_forward h

theorem entries_forward (h : Forward item) (n : Nat) : Forward (entries item n) := by
  induction n with
  | zero => exact .pure _
  | succ n ih =>
    refine .bind .peek fun k => ?_
    split
    · exact .pure _
    · exact .bind (.select _) fun _ => ih
    · exact .bind (.select _) fun _ => ih
    · exact .bind h fun _ => .bind ih fun _ => .pure _

private theorem braced_forward (h : Forward item) : Forward (braced item) :=
  .bind (.expect _) fun _ => .bind (.sized (entries_forward h)) fun _ =>
    .bind (.expect _) fun _ => .pure _

private theorem parenthesised_forward (h : Forward item) : Forward (parenthesised item) :=
  .bind (.expect _) fun _ => .bind h fun _ => .bind (.expect _) fun _ => .pure _

end Lists

section Expressions

variable {inner : Reader Expr} (h : Forward inner)
include h

private theorem coord_forward : Forward (coord inner) := by
  refine .bind .peek fun k => ?_
  split
  · exact .bind (.expect _) fun _ => .bind h fun _ => .pure _
  · exact .bind h fun _ => .pure _

private theorem selector_forward : Forward (selector inner) :=
  .bind (.expect _) fun _ => .bind (commaList_forward (coord_forward h)) fun _ =>
    .bind (.expect _) fun _ => .pure _

private theorem named_forward : Forward (named inner) := by
  refine .bind ident_forward fun id => .bind .peek fun k => ?_
  split
  · exact .bind (parenthesised_forward (commaListUntil_forward _ h)) fun _ => .pure _
  · refine .bind (selector_forward h) fun _ => .bind .peek fun k => ?_
    split
    · exact .bind (selector_forward h) fun _ => .pure _
    · exact .pure _
  · exact .pure _

private theorem atom_forward : Forward (atom inner) := by
  refine .bind .peek fun k => ?_
  split
  · exact .bind (.expect _) fun _ => .pure _
  · exact named_forward h
  · exact .bind (.expect _) fun _ => .bind (commaListUntil_forward _ h) fun _ =>
      .bind (.expect _) fun _ => .pure _
  · exact .bind (parenthesised_forward h) fun _ => .pure _
  · exact .fail

theorem operand_forward (n : Nat) : Forward (operand inner n) := by
  induction n with
  | zero => exact .fail
  | succ n ih =>
    refine .bind .peek fun k => ?_
    split
    · exact .bind (.select _) fun _ => .bind ih fun _ => .pure _
    · refine .bind (atom_forward h) fun _ => .bind .peek fun k => ?_
      split
      · exact .bind (.expect _) fun _ => .bind ih fun _ => .pure _
      · exact .pure _

theorem chain_forward (level : Level) (n : Nat) (left : Expr) :
    Forward (chain level inner n left) := by
  induction n generalizing left with
  | zero => exact .pure _
  | succ n ih =>
    refine .bind .peek fun k => ?_
    split
    · exact .bind (.select _) fun _ => .bind h fun _ => ih _
    · exact .pure _

private theorem layered_forward (levels : List Level) : Forward (layered inner levels) := by
  induction levels with
  | nil => exact h
  | cons level levels ih =>
    exact .bind ih fun _ => .sized fun _ => chain_forward ih level _ _

end Expressions

theorem expression_forward (n : Nat) : Forward (expression n) := by
  induction n with
  | zero => exact .fail
  | succ n ih =>
    refine .bind (layered_forward (.sized (operand_forward ih)) _) fun _ => .bind .peek fun k => ?_
    split
    · exact .bind (.expect _) fun _ => .bind ih fun _ => .bind (.expect _) fun _ =>
        .bind ih fun _ => .pure _
    · exact .pure _

private theorem expr_forward : Forward expr := .sized expression_forward

private theorem condition_forward : Forward condition :=
  .bind (parenthesised_forward expr_forward) fun _ => .pure _

private theorem header_forward : Forward header := by
  refine .bind ident_forward fun _ => .bind (.expect _) fun _ => .bind expr_forward fun _ =>
    .bind .peek fun k => ?_
  split
  · exact .bind (.expect _) fun _ => .bind expr_forward fun _ => .pure _
  · exact .pure _

theorem elseAhead_forward : Forward elseAhead := by
  intro ts
  have hdrop := List.dropWhile_suffix (l := ts) fun t => decide (t.kind = Kind.newline)
  rw [elseAhead]
  split
  · next t rest heq =>
    rw [heq] at hdrop
    split
    · exact (List.suffix_cons t rest).trans hdrop
    · exact List.suffix_rfl
  · exact List.suffix_rfl

theorem statement_forward (n : Nat) : Forward (statement n) := by
  induction n with
  | zero => exact .fail
  | succ n ih =>
    refine .bind .peek fun k => ?_
    split
    · exact .bind ident_forward fun _ => .bind (.select _) fun _ => .bind expr_forward fun _ =>
        .bind (.select _) fun _ => .pure _
    · refine .bind (.expect _) fun _ => .bind condition_forward fun _ => .bind ih fun _ =>
        .bind elseAhead_forward fun found => ?_
      split
      · exact .bind ih fun _ => .pure _
      · exact .pure _
    · exact .bind (.expect _) fun _ => .bind condition_forward fun _ => .bind ih fun _ => .pure _
    · exact .bind (.expect _) fun _ => .bind condition_forward fun _ => .bind ih fun _ => .pure _
    · exact .bind (.expect _) fun _ => .bind (parenthesised_forward header_forward) fun _ =>
        .bind ih fun _ => .pure _
    · exact .bind (.expect _) fun _ => .bind condition_forward fun _ =>
        .bind (.select _) fun _ => .pure _
    · exact .bind (.expect _) fun _ => .bind (.select _) fun _ => .pure _
    · exact .bind (braced_forward ih) fun _ => .pure _
    · exact .fail

private theorem imageDecl_forward : Forward imageDecl :=
  .bind ident_forward fun _ => .bind (.expect _) fun _ => .bind (.select _) fun _ =>
    .bind (.select _) fun _ => .pure _

private theorem namedValue_forward : Forward namedValue :=
  .bind ident_forward fun _ => .bind (.expect _) fun _ => .bind expr_forward fun _ =>
    .bind (.select _) fun _ => .pure _

theorem item_forward : Forward item := by
  refine .bind .peek fun k => ?_
  split
  · exact .bind (.expect _) fun _ => .bind (braced_forward imageDecl_forward) fun _ => .pure _
  · exact .bind (.expect _) fun _ => .bind (braced_forward namedValue_forward) fun _ => .pure _
  · exact .bind (.expect _) fun _ => .bind (braced_forward namedValue_forward) fun _ => .pure _
  · exact .bind (.sized statement_forward) fun _ => .pure _

end Script.Grammar

end RasterScript
