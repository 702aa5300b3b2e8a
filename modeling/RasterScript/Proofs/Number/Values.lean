import Mathlib
import RasterScript.Proofs.Number.Integers

/-! Doubles as exact rational numbers, and which of them are natural numbers. -/
namespace RasterScript.Number

/-- The number that a double is, if it is one. -/
def value? (x : Float) : Option ℚ :=
  match Binary.ofFloat x with
  | .finite negative m q => some (if negative then -(m * 2 ^ q) else m * 2 ^ q)
  | _ => none

private theorem whole_iff {m n : Nat} {q : Int} :
    Binary.isWhole m q = true ∧ Binary.wholePart m q = n ↔ (m : ℚ) * 2 ^ q = n := by
  rw [Binary.isWhole, Binary.wholePart]
  cases q with
  | ofNat k =>
    rw [Int.ofNat_eq_natCast, if_pos (Int.natCast_nonneg k), decide_eq_true (Int.natCast_nonneg k),
      Bool.true_or, zpow_natCast]
    show true = true ∧ m * 2 ^ k = n ↔ _
    rw [eq_self, true_and]
    norm_cast
  | negSucc k =>
    rw [if_neg (Int.not_le.mpr (Int.negSucc_lt_zero k))]
    show _ ∧ m / 2 ^ (k + 1) = n ↔ _
    rw [zpow_negSucc, ← div_eq_mul_inv, div_eq_iff (by positivity)]
    have hpos : 0 < 2 ^ (k + 1) := Nat.two_pow_pos (k + 1)
    have hwhole : (decide (0 ≤ Int.negSucc k) || m % twoTo (-Int.negSucc k).toNat == 0) = true ↔
        m % 2 ^ (k + 1) = 0 := by
      rw [decide_eq_false (Int.not_le.mpr (Int.negSucc_lt_zero k)), Bool.false_or, beq_iff_eq]
      rfl
    rw [hwhole]
    norm_cast
    constructor
    · rintro ⟨hmod, rfl⟩
      rw [Nat.div_mul_cancel (Nat.dvd_of_mod_eq_zero hmod)]
    · rintro rfl
      exact ⟨Nat.mul_mod_left n _, Nat.mul_div_cancel n hpos⟩

/-- Natural numbers are recognised by their value. -/
theorem natural?_eq_some_iff {x : Float} {n : Nat} :
    natural? x = some n ↔ value? x = some (n : ℚ) := by
  rw [natural?, value?]
  cases Binary.ofFloat x with
  | nan => simp
  | infinite negative => simp
  | finite negative m q =>
    simp only [Option.some.injEq]
    cases negative with
    | false =>
      rw [if_neg Bool.false_ne_true, ← whole_iff]
      cases Binary.isWhole m q <;> simp
    | true =>
      rw [if_pos rfl]
      rcases Nat.eq_zero_or_pos m with rfl | hm
      · -- Zero is a natural number with either sign.
        have hzero : -(((0 : Nat) : ℚ) * 2 ^ q) = ((0 : Nat) : ℚ) * 2 ^ q := by simp
        rw [hzero, ← whole_iff]
        cases Binary.isWhole 0 q <;> simp
      · have hneg : -((m : ℚ) * 2 ^ q) < n := by
          have hpos : (0 : ℚ) < m * 2 ^ q := by positivity
          have hn : (0 : ℚ) ≤ n := Nat.cast_nonneg n
          linarith
        simp [hm.ne', hneg.ne]

theorem natural?_ofNat {n : Nat} (hn : n < 2 ^ 53) : natural? (Float.ofNat n) = some n := by
  obtain rfl | hpos := Nat.eq_zero_or_pos n
  · decide +kernel
  · rw [natural?_eq_some_iff, value?, binary_ofNat hpos hn]
    simp [zpow_neg]

theorem natural?_of_isNaN {x : Float} (h : x.isNaN) : natural? x = none := by
  rw [natural?, binary_of_isNaN h]

theorem natural?_of_isInf {x : Float} (h : x.isInf) : natural? x = none := by
  obtain ⟨negative, hx⟩ := binary_of_isInf h
  rw [natural?, hx]

theorem natural?_of_neg {x : Float} (h : x < 0) : natural? x = none := by
  rcases binary_of_neg h with hx | ⟨m, q, hm, hx⟩
  · rw [natural?, hx]
  · rw [natural?, hx]
    simp [hm.ne']

theorem natural?_of_fraction {x : Float} {v : ℚ} (hx : value? x = some v) (hv : v.den ≠ 1) :
    natural? x = none := by
  rw [Option.eq_none_iff_forall_ne_some]
  intro n hn
  rw [natural?_eq_some_iff, hx, Option.some.injEq] at hn
  subst hn
  exact hv (Rat.den_natCast n)

end RasterScript.Number
