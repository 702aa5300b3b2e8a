import RasterScript.Number.Power

/-! Arithmetic in machine words of 64 bits, and counting in words of 32 bits. -/
namespace RasterScript

/-- What becomes of a result that does not fit in a word: the program stops, or the result wraps
around. -/
inductive Words where
  | checked
  | wrapping
deriving DecidableEq, Repr

namespace Words

open Number (twoTo)

/-- A result as a signed word; none if the program stops. -/
def signed (w : Words) (n : Int) : Option Int :=
  if -(twoTo 63 : Int) ≤ n && n < twoTo 63 then some n
  else
    match w with
    | checked => none
    | wrapping => some ((n + twoTo 63) % twoTo 64 - twoTo 63)

/-- A result as an unsigned word of the given number of bits. -/
def truncated (w : Words) (bits n : Nat) : Option Nat :=
  if n < twoTo bits then some n
  else
    match w with
    | checked => none
    | wrapping => some (n % twoTo bits)

def unsigned (w : Words) (n : Nat) : Option Nat := w.truncated 64 n

def unsigned32 (w : Words) (n : Nat) : Option Nat := w.truncated 32 n

/-- The distance from one signed word to another, taken as an unsigned word. -/
def distance (w : Words) (low high : Int) : Option Nat :=
  (w.signed (high - low)).map fun n : Int => (n % (twoTo 64 : Int)).toNat

variable {w : Words} {bits n k : Nat}

theorem truncated_of_lt (h : n < twoTo bits) : w.truncated bits n = some n := if_pos h

/-- The result is exact up to multiples of the number of words, and where the program would stop it
is exact. -/
theorem truncated_eq_some_iff :
    w.truncated bits n = some k ↔ k = n % twoTo bits ∧ (w = .checked → n < twoTo bits) := by
  by_cases h : n < twoTo bits
  · rw [truncated_of_lt h, Nat.mod_eq_of_lt h, Option.some_inj, eq_comm]
    exact ⟨fun hk => ⟨hk, fun _ => h⟩, And.left⟩
  · cases w with
    | checked =>
      have hnone : truncated .checked bits n = none := if_neg h
      rw [hnone]
      exact iff_of_false (by rintro ⟨⟩) fun hk => h (hk.2 rfl)
    | wrapping =>
      have hwrapped : truncated .wrapping bits n = some (n % twoTo bits) := if_neg h
      rw [hwrapped, Option.some_inj, eq_comm]
      exact ⟨fun hk => ⟨hk, by rintro ⟨⟩⟩, And.left⟩

end Words

end RasterScript
