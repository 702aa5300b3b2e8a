import RasterScript.Token

/-! Reading from the head of a token list, with the place kept where no token fits. -/
namespace RasterScript.Token

/-- How a reading ends: with a value and the tokens after it, or stuck before a token (or the end)
that cannot follow what was read. -/
inductive Outcome (α : Type) where
  | read (value : α) (rest : List Token)
  | stuck (rest : List Token)
deriving Repr

/-- A way to read a value from the head of a token list. -/
def Reader (α : Type) := List Token → Outcome α

namespace Reader

variable {α β : Type}

protected def pure (a : α) : Reader α := fun ts => .read a ts

protected def bind (r : Reader α) (f : α → Reader β) : Reader β := fun ts =>
  match r ts with
  | .read a rest => f a rest
  | .stuck rest => .stuck rest

instance : Monad Reader where
  pure := Reader.pure
  bind := Reader.bind

@[simp] theorem pure_apply (a : α) (ts : List Token) : (pure a : Reader α) ts = .read a ts := rfl

theorem bind_apply (r : Reader α) (f : α → Reader β) (ts : List Token) :
    (r >>= f) ts = match r ts with
      | .read a rest => f a rest
      | .stuck rest => .stuck rest := rfl

/-- No token fits here. -/
def fail : Reader α := fun ts => .stuck ts

def peek : Reader (Option Kind) := fun ts => .read (ts.head?.map Token.kind) ts

def expect (k : Kind) : Reader Token
  | t :: ts => if t.kind = k then .read t ts else .stuck (t :: ts)
  | [] => .stuck []

/-- A token whose kind has a meaning in `f`. -/
def select (f : Kind → Option α) : Reader (Token × α)
  | t :: ts =>
    match f t.kind with
    | some a => .read (t, a) ts
    | none => .stuck (t :: ts)
  | [] => .stuck []

/-- A reader that is told how many tokens are ahead. -/
def sized (r : Nat → Reader α) : Reader α := fun ts => r ts.length ts

end Reader

end RasterScript.Token
