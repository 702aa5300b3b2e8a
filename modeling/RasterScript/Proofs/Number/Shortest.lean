import Mathlib
import RasterScript.Proofs.Number.Spelling
import RasterScript.Proofs.Number.Rounding

/-! The fewest digits that read back. The decimal found for a double lies in the interval of the
numbers that round to it, so the double is the one nearest to its decimal. -/
namespace RasterScript.Number

/-! ### The numbers that round to a double -/

/-- The integer nearest to a number is the one at most a half away, or an even one just a half
away. -/
theorem nearestEven_of_near {a : ℚ} {m : ℕ} (ha : 0 ≤ a) (hlow : (m : ℚ) - 1 / 2 ≤ a)
    (hhigh : a ≤ m + 1 / 2) (hodd : m % 2 = 1 → (m : ℚ) - 1 / 2 < a ∧ a < m + 1 / 2) :
    nearestEven a = m := by
  have hfloor {b : ℚ} {n : ℕ} (hn : (n : ℚ) ≤ b) (hb : b < n + 1) : ⌊b⌋₊ = n :=
    (Nat.floor_eq_iff ((Nat.cast_nonneg n).trans hn)).mpr ⟨hn, hb⟩
  rw [nearestEven_eq]
  by_cases hm : (m : ℚ) ≤ a
  · rw [hfloor hm (by linarith)]
    by_cases htie : a = m + 1 / 2
    · have hodd' : m % 2 ≠ 1 := fun h => (hodd h).2.ne htie
      have htwice : ⌊2 * a⌋₊ = 2 * m + 1 := hfloor (by push_cast; linarith) (by push_cast; linarith)
      rw [htwice, if_neg (by omega), if_pos (by push_cast; linarith)]
      omega
    · have hlt : a < m + 1 / 2 := lt_of_le_of_ne hhigh htie
      have htwice : ⌊2 * a⌋₊ = 2 * m := hfloor (by push_cast; linarith) (by push_cast; linarith)
      rw [htwice, if_pos (by omega)]
  · obtain ⟨n, rfl⟩ : ∃ n, m = n + 1 := by
      refine ⟨m - 1, (Nat.succ_pred_eq_of_ne_zero ?_).symm⟩
      rintro rfl
      exact hm (by simpa using ha)
    push_cast at hm hlow hodd
    have htwice : ⌊2 * a⌋₊ = 2 * n + 1 := hfloor (by push_cast; linarith) (by push_cast; linarith)
    have hwhole : ⌊a⌋₊ = n := hfloor (by linarith) (by linarith)
    rw [hwhole, htwice, if_neg (by omega)]
    split
    · next htie =>
      have heven : (n + 1) % 2 ≠ 1 := by
        intro h
        have := (hodd h).1
        push_cast at htie
        linarith
      omega
    · rfl

/-- How far below `m * 2 ^ q` the numbers reach that round to it, in quarters of the last place:
the places below a power of two are half as wide. -/
def reach (m : ℕ) (q : ℤ) : ℕ := if m = 2 ^ 52 ∧ -1074 < q then 1 else 2

private theorem reach_le (m : ℕ) (q : ℤ) : 1 ≤ reach m q ∧ reach m q ≤ 2 := by
  rw [reach]
  split <;> omega

/-- A number between the halves to the doubles next to `m * 2 ^ q`; the ends count for an even
mantissa. -/
structure Around (m : ℕ) (q : ℤ) (v : ℚ) : Prop where
  low : ((m : ℚ) - reach m q / 4) * 2 ^ q ≤ v
  high : v ≤ ((m : ℚ) + 1 / 2) * 2 ^ q
  strict : m % 2 = 1 → ((m : ℚ) - reach m q / 4) * 2 ^ q < v ∧ v < ((m : ℚ) + 1 / 2) * 2 ^ q

theorem Around.pos {m : ℕ} {q : ℤ} {v : ℚ} (hm : 0 < m) (h : Around m q v) : 0 < v := by
  have hreach : (reach m q : ℚ) ≤ 2 := by exact_mod_cast (reach_le m q).2
  have hone : (1 : ℚ) ≤ m := by exact_mod_cast hm
  refine lt_of_lt_of_le (mul_pos ?_ (by positivity)) h.low
  linarith

/-- Just below a power of two the last place is one further down. -/
theorem nearRank_below {q : ℤ} {v : ℚ} (hq : -1074 < q) (hlow : (2 ^ 52 - 1 / 4) * 2 ^ q ≤ v)
    (hless : v < 2 ^ 52 * 2 ^ q) : nearRank v = rankAt (2 ^ 52) q := by
  have hhalf : (2 : ℚ) ^ q = 2 * 2 ^ (q - 1) := by
    rw [zpow_sub_one₀ two_ne_zero]
    ring
  have hpow : (0 : ℚ) < 2 ^ (q - 1) := by positivity
  rw [hhalf] at hlow hless
  norm_num at hlow hless
  have hplace : lastPlace v = q - 1 := by
    refine lastPlace_eq (by omega) ?_ (.inl ?_)
    · rw [add_comm, zpow_add₀ two_ne_zero]
      norm_num
      linarith
    · rw [add_comm, zpow_add₀ two_ne_zero]
      norm_num
      linarith
  have hnear : nearestEven (v / 2 ^ (q - 1)) = 2 ^ 53 := by
    refine nearestEven_of_near ?_ ?_ ?_ (fun h => absurd h (by decide))
    · exact div_nonneg (by linarith) hpow.le
    · rw [le_div_iff₀ hpow]
      norm_num
      linarith
    · rw [div_le_iff₀ hpow]
      norm_num
      linarith
  rw [nearRank, hplace, hnear, rankAt, rankAt]
  omega

/-- The numbers around a double have its rank. -/
theorem nearRank_of_around {m : ℕ} {q : ℤ} {v : ℚ} (hm : 0 < m) (hcanonical : Canonical m q)
    (h : Around m q v) : nearRank v = rankAt m q := by
  have hpos := h.pos hm
  obtain ⟨hlow, hhigh, hstrict⟩ := h
  obtain ⟨hlt, hleast, hnormal⟩ := hcanonical
  have hpow : (0 : ℚ) < 2 ^ q := by positivity
  by_cases hbelow : (m = 2 ^ 52 ∧ -1074 < q) ∧ v < m * 2 ^ q
  · obtain ⟨⟨rfl, hq⟩, hless⟩ := hbelow
    rw [reach, if_pos ⟨rfl, hq⟩] at hlow
    exact nearRank_below hq (by exact_mod_cast hlow) (by exact_mod_cast hless)
  · have hhalf : ((m : ℚ) - 1 / 2) * 2 ^ q ≤ v := by
      have hreach : (reach m q : ℚ) ≤ 2 := by exact_mod_cast (reach_le m q).2
      exact (mul_le_mul_of_nonneg_right (by linarith) hpow.le).trans hlow
    have hplace : lastPlace v = q := by
      refine lastPlace_eq hleast ?_ ?_
      · have hbits : (m : ℚ) + 1 ≤ 2 ^ (53 : ℤ) := by exact_mod_cast hlt
        rw [add_comm, zpow_add₀ two_ne_zero]
        exact hhigh.trans_lt (mul_lt_mul_of_pos_right (by linarith) hpow)
      · by_cases hq : q = -1074
        · exact .inr hq
        · left
          rw [add_comm, zpow_add₀ two_ne_zero]
          obtain hfull | hfull := (hnormal.resolve_right hq).eq_or_lt
          · refine not_lt.mp fun hless => hbelow ⟨⟨hfull.symm, by omega⟩, ?_⟩
            rw [← hfull]
            exact_mod_cast hless
          · have hmore : (2 : ℚ) ^ (52 : ℤ) + 1 ≤ m := by exact_mod_cast hfull
            exact (mul_le_mul_of_nonneg_right (by linarith) hpow.le).trans hhalf
    have hnear : nearestEven (v / 2 ^ q) = m := by
      refine nearestEven_of_near (by positivity) ?_ ?_ (fun hodd => ⟨?_, ?_⟩)
      · rwa [le_div_iff₀ hpow]
      · rwa [div_le_iff₀ hpow]
      · have hreach : reach m q = 2 := if_neg fun h => by
          rw [h.1] at hodd
          exact absurd hodd (by decide)
        rw [lt_div_iff₀ hpow]
        refine lt_of_eq_of_lt ?_ (hstrict hodd).1
        rw [hreach]
        norm_num
      · rw [div_lt_iff₀ hpow]
        exact (hstrict hodd).2
    rw [nearRank, hplace, hnear]

/-! ### Grids of powers of ten -/

namespace Decimal

/-- The factor that makes the points of a grid whole. -/
def Grid.factor (q e : ℤ) : ℕ := 4 * 2 ^ (-q).toNat * 10 ^ (-e).toNat

section Grid

variable {m k : ℕ} {q e : ℤ}

private theorem pow_toNat {b : ℚ} (hb : b ≠ 0) (n : ℤ) : b ^ n.toNat = b ^ n * b ^ (-n).toNat := by
  rw [← zpow_natCast, ← zpow_natCast, ← zpow_add₀ hb]
  congr 1
  omega

private theorem factor_pos (q e : ℤ) : (0 : ℚ) < Grid.factor q e := by
  rw [Grid.factor]
  positivity

private theorem step_eq : ((Grid.around m q e).step : ℚ) = 10 ^ e * Grid.factor q e := by
  show ((10 ^ e.toNat * 4 * 2 ^ (-q).toNat : ℕ) : ℚ) = _
  rw [Grid.factor]
  push_cast
  rw [pow_toNat (by norm_num) e]
  ring

private theorem unit_eq : 4 * ((Grid.around m q e).unit : ℚ) = 2 ^ q * Grid.factor q e := by
  show 4 * ((2 ^ q.toNat * 10 ^ (-e).toNat : ℕ) : ℚ) = _
  rw [Grid.factor]
  push_cast
  rw [pow_toNat two_ne_zero q]
  ring

/-- The ends of the interval and a point, each made whole. -/
theorem scaled (hm : 0 < m) :
    ((k * (Grid.around m q e).step : ℕ) : ℚ) = k * 10 ^ e * Grid.factor q e ∧
    (((4 * m - reach m q) * (Grid.around m q e).unit : ℕ) : ℚ) =
      (m - reach m q / 4) * 2 ^ q * Grid.factor q e ∧
    (((4 * m + 2) * (Grid.around m q e).unit : ℕ) : ℚ) =
      (m + 1 / 2) * 2 ^ q * Grid.factor q e := by
  have hreach := (reach_le m q).2
  have hunit := @unit_eq m q e
  refine ⟨?_, ?_, ?_⟩
  · rw [Nat.cast_mul, step_eq, mul_assoc]
  · rw [Nat.cast_mul, Nat.cast_sub (by omega), mul_assoc, ← hunit]
    push_cast
    ring
  · rw [mul_assoc, ← hunit]
    push_cast
    ring

/-- A point that a grid holds is a decimal around the double. -/
theorem around_of_holds (hm : 0 < m) (h : (Grid.around m q e).holds k = true) :
    Around m q (k * 10 ^ e) := by
  obtain ⟨hpoint, hlow, hhigh⟩ := @scaled m k q e hm
  have hfactor := factor_pos q e
  have hle {a b : ℕ} {x y : ℚ} (ha : (a : ℚ) = x * Grid.factor q e)
      (hb : (b : ℚ) = y * Grid.factor q e) (hab : a ≤ b) : x ≤ y := by
    refine le_of_mul_le_mul_right ?_ hfactor
    rw [← ha, ← hb]
    exact_mod_cast hab
  have hlt {a b : ℕ} {x y : ℚ} (ha : (a : ℚ) = x * Grid.factor q e)
      (hb : (b : ℚ) = y * Grid.factor q e) (hab : a < b) : x < y := by
    refine lt_of_mul_lt_mul_right ?_ hfactor.le
    rw [← ha, ← hb]
    exact_mod_cast hab
  rw [Grid.holds] at h
  split at h
  · next heven =>
    rw [Bool.and_eq_true, decide_eq_true_eq, decide_eq_true_eq] at h
    refine ⟨hle hlow hpoint h.1, hle hpoint hhigh h.2, fun hodd => ?_⟩
    have : m % 2 = 0 := heven
    omega
  · next hodd =>
    rw [Bool.and_eq_true, decide_eq_true_eq, decide_eq_true_eq] at h
    exact ⟨hle hlow hpoint h.1.le, hle hpoint hhigh h.2.le,
      fun _ => ⟨hlt hlow hpoint h.1, hlt hpoint hhigh h.2⟩⟩

private theorem holds_of_nearest? {g : Grid} {tie : Tie} (h : g.nearest? tie = some k) :
    g.holds k = true := by
  have hpick (n : ℕ) : tie.pick n = n ∨ tie.pick n = n + 1 := by
    cases tie with
    | up => exact .inr rfl
    | toEven => exact ite_eq_or_eq ..
  rw [Grid.nearest?] at h
  simp only [] at h
  split at h
  · next hfirst hnext =>
    obtain rfl := Option.some.inj h
    split_ifs
    · exact hfirst
    · exact hnext
    · obtain hk | hk := hpick (4 * g.m * g.unit / g.step)
      · rw [hk]
        exact hfirst
      · rw [hk]
        exact hnext
  · next hfirst hnext =>
    obtain rfl := Option.some.inj h
    exact hfirst
  · next hfirst hnext =>
    obtain rfl := Option.some.inj h
    exact hnext
  · cases h

/-- On a grid finer than a quarter of the last place, the point just below the value rounds to
it. -/
theorem holds_of_fine {g : Grid} (hbelow : 1 ≤ g.below) (hm : g.below ≤ 4 * g.m)
    (hstep : 0 < g.step) (hfine : g.step ≤ g.unit) :
    g.holds (4 * g.m * g.unit / g.step) = true := by
  have hdiv := Nat.div_add_mod' (4 * g.m * g.unit) g.step
  have hmod := Nat.mod_lt (4 * g.m * g.unit) hstep
  have hlow : (4 * g.m - g.below) * g.unit < 4 * g.m * g.unit / g.step * g.step := by
    have hunit : (4 * g.m - g.below) * g.unit + g.unit ≤ 4 * g.m * g.unit := by
      rw [← Nat.succ_mul]
      exact Nat.mul_le_mul_right _ (by omega)
    omega
  have hhigh : 4 * g.m * g.unit / g.step * g.step < (4 * g.m + 2) * g.unit := by
    rw [Nat.add_mul]
    omega
  rw [Grid.holds]
  split
  · rw [Bool.and_eq_true, decide_eq_true_eq, decide_eq_true_eq]
    exact ⟨hlow.le, hhigh.le⟩
  · rw [Bool.and_eq_true, decide_eq_true_eq, decide_eq_true_eq]
    exact ⟨hlow, hhigh⟩

private theorem nearest?_ne_none {g : Grid} (tie : Tie)
    (h : g.holds (4 * g.m * g.unit / g.step) = true) : g.nearest? tie ≠ none := by
  rw [Grid.nearest?]
  simp only []
  split
  · exact Option.some_ne_none _
  · exact Option.some_ne_none _
  · exact Option.some_ne_none _
  · next hfirst _ => exact absurd (h.symm.trans hfirst) (by decide)

private theorem step_le_unit_iff :
    (Grid.around m q e).step ≤ (Grid.around m q e).unit ↔ (4 : ℚ) * 10 ^ e ≤ 2 ^ q := by
  have hstep := @step_eq m q e
  have hunit := @unit_eq m q e
  rw [← mul_le_mul_iff_of_pos_right (factor_pos q e), ← hunit, mul_assoc, ← hstep]
  norm_num

private theorem nearest?_ne_none_of_fine (tie : Tie) (hm : 0 < m)
    (hfine : (4 : ℚ) * 10 ^ e ≤ 2 ^ q) : (Grid.around m q e).nearest? tie ≠ none := by
  have hreach := reach_le m q
  have hstep : (0 : ℚ) < (Grid.around m q e).step := by
    rw [step_eq]
    exact mul_pos (by positivity) (factor_pos q e)
  refine nearest?_ne_none tie (holds_of_fine hreach.1 ?_ (by exact_mod_cast hstep)
    (step_le_unit_iff.mpr hfine))
  show reach m q ≤ 4 * m
  omega

/-- The search ends on a grid that holds its point, if one of the grids on its way is fine
enough. -/
theorem holds_search (tie : Tie) (hm : 0 < m) {fuel : ℕ} {i : ℕ} (hi : i < fuel)
    (hfine : (4 : ℚ) * 10 ^ (e - i) ≤ 2 ^ q) :
    (Grid.around m q (search tie m q fuel e).exponent).holds (search tie m q fuel e).digits =
      true := by
  induction fuel generalizing e i with
  | zero => omega
  | succ fuel ih =>
    rw [search]
    split
    · next k hk => exact holds_of_nearest? hk
    · next hnone =>
      obtain rfl | hpos := i.eq_zero_or_pos
      · rw [Nat.cast_zero, sub_zero] at hfine
        exact absurd hnone (nearest?_ne_none_of_fine tie hm hfine)
      · refine @ih (e - 1) (i - 1) (by omega) ?_
        rw [show e - 1 - ((i - 1 : ℕ) : ℤ) = e - i by omega]
        exact hfine

/-- The search goes no further than to the first grid that is fine enough. -/
theorem coarse_search (tie : Tie) (hm : 0 < m) (fuel : ℕ)
    (hcoarse : (2 : ℚ) ^ q < 4 * 10 ^ (e + 1)) :
    (2 : ℚ) ^ q < 4 * 10 ^ ((search tie m q fuel e).exponent + 1) := by
  induction fuel generalizing e with
  | zero => exact hcoarse
  | succ fuel ih =>
    rw [search]
    split
    · exact hcoarse
    · next hnone =>
      apply ih
      rw [sub_add_cancel]
      exact not_le.mp fun hfine => nearest?_ne_none_of_fine tie hm hfine hnone

/-- The first grid is coarser than the doubles of its size, and the last one finer. -/
theorem grids_of_bits {b : ℕ} (hb : b ≤ 52) (hleast : -1074 ≤ q) (hq : q ≤ 971) :
    (2 : ℚ) ^ q < 4 * 10 ^ (((b : ℤ) + q + 1) * 30103 / 100000 + 2 + 1) ∧
    (4 : ℚ) * 10 ^ (((b : ℤ) + q + 1) * 30103 / 100000 + 2 - (23 : ℕ)) ≤ 2 ^ q := by
  have hall : ∀ n : ℕ, n < 2046 →
      (Grid.around 0 (n - 1074) (((n : ℤ) - 1073) * 30103 / 100000 + 3)).unit <
        (Grid.around 0 (n - 1074) (((n : ℤ) - 1073) * 30103 / 100000 + 3)).step ∧
      (Grid.around 0 (n - 1074) (((n : ℤ) - 1021) * 30103 / 100000 - 21)).step ≤
        (Grid.around 0 (n - 1074) (((n : ℤ) - 1021) * 30103 / 100000 - 21)).unit := by
    decide +kernel
  obtain ⟨n, rfl⟩ : ∃ n : ℕ, q = n - 1074 := ⟨(q + 1074).toNat, by omega⟩
  obtain ⟨hfirst, hlast⟩ := hall n (by omega)
  rw [← not_le, step_le_unit_iff, not_le] at hfirst
  have hten {i j : ℤ} (hij : i ≤ j) : (4 : ℚ) * 10 ^ i ≤ 4 * 10 ^ j :=
    mul_le_mul_of_nonneg_left (zpow_le_zpow_right₀ (by norm_num) hij) (by norm_num)
  exact ⟨hfirst.trans_le (hten (by omega)), (hten (by omega)).trans (step_le_unit_iff.mp hlast)⟩

section Shortest

variable (tie : Tie) (hm : 0 < m) (hcanonical : Canonical m q) (hq : q ≤ 971)
include hm hcanonical hq

private theorem grids_of_canonical :
    (2 : ℚ) ^ q < 4 * 10 ^ (((m.log2 : ℤ) + q + 1) * 30103 / 100000 + 2 + 1) ∧
    (4 : ℚ) * 10 ^ (((m.log2 : ℤ) + q + 1) * 30103 / 100000 + 2 - (23 : ℕ)) ≤ 2 ^ q := by
  have hbits := (Nat.log2_lt hm.ne').mpr hcanonical.lt
  exact grids_of_bits (by omega) hcanonical.least hq

/-- The decimal found for a double is around it. -/
theorem around_shortest : Around m q (shortest tie m q).value :=
  around_of_holds hm (holds_search tie hm (by decide : 23 < 24)
    (grids_of_canonical hm hcanonical hq).2)

theorem shortest_pos : 0 < (shortest tie m q).digits := by
  have hpos := (around_shortest tie hm hcanonical hq).pos hm
  rw [value, mul_pos_iff_of_pos_right (by positivity)] at hpos
  exact_mod_cast hpos

/-- The decimal found for a double has no more digits than tell it from its neighbours. -/
theorem shortest_lt : (shortest tie m q).digits < 2 ^ 59 := by
  have hcoarse := coarse_search tie hm 24 (grids_of_canonical hm hcanonical hq).1
  have hhigh := (around_shortest tie hm hcanonical hq).high
  have hbits : (m : ℚ) + 1 ≤ 2 ^ 53 := by exact_mod_cast hcanonical.lt
  have hten : (10 : ℚ) ≠ 0 := by norm_num
  have hpow : (0 : ℚ) < 10 ^ (shortest tie m q).exponent := by positivity
  rw [zpow_add_one₀ hten] at hcoarse
  have hlt : ((shortest tie m q).digits : ℚ) * 10 ^ (shortest tie m q).exponent <
      2 ^ 59 * 10 ^ (shortest tie m q).exponent := by
    calc ((shortest tie m q).digits : ℚ) * 10 ^ (shortest tie m q).exponent
        ≤ (m + 1 / 2) * 2 ^ q := hhigh
      _ ≤ 2 ^ 53 * 2 ^ q := mul_le_mul_of_nonneg_right (by linarith) (by positivity)
      _ ≤ 2 ^ 53 * (4 * (10 ^ (shortest tie m q).exponent * 10)) := by
          gcongr
          exact hcoarse.le
      _ < 2 ^ 59 * 10 ^ (shortest tie m q).exponent := by
          norm_num
          linarith
  exact_mod_cast lt_of_mul_lt_mul_right hlt hpow.le

end Shortest

end Grid

end Decimal

namespace Layout

variable {m : ℕ} {q : ℤ}

/-- The text of zero. -/
theorem magnitude_zero (layout : Layout) (q : ℤ) :
    layout.magnitude 0 q =
      (plainly ['0'] (List.replicate layout.point.toNat '0')).chars layout.plus := by
  rw [magnitude, if_pos rfl, chars_plainly]
  cases layout.point <;> rfl

/-- The zeros of a raster file leave the digits in 64 bits. -/
theorem padded_lt {d : Decimal} {zeros : ℕ} (hd : d.digits < 2 ^ 59)
    (hzeros : zeros = 0 ∨
      file.positional (d.exponent + (Nat.toDigits 10 d.digits).length - 1) = true ∧
        zeros ≤ d.exponent.toNat + 1) : (d.padded zeros).digits < 2 ^ 64 := by
  show d.digits * 10 ^ zeros < 2 ^ 64
  obtain rfl | ⟨hpositional, hzeros⟩ := hzeros
  · omega
  · have hpower : d.exponent + (Nat.toDigits 10 d.digits).length - 1 < 16 := by
      simp only [file, Bool.and_eq_true, decide_eq_true_eq] at hpositional
      exact hpositional.2
    by_cases he : 0 ≤ d.exponent
    · have hdigits : d.digits < 10 ^ (Nat.toDigits 10 d.digits).length :=
        (Nat.length_toDigits_le_iff (by decide) Nat.length_toDigits_pos).mp le_rfl
      calc d.digits * 10 ^ zeros
          < 10 ^ (Nat.toDigits 10 d.digits).length * 10 ^ zeros := by gcongr
        _ = 10 ^ ((Nat.toDigits 10 d.digits).length + zeros) := (pow_add ..).symm
        _ ≤ 10 ^ 17 := Nat.pow_le_pow_right (by decide) (by omega)
        _ < 2 ^ 64 := by decide
    · calc d.digits * 10 ^ zeros ≤ d.digits * 10 ^ 1 := by
            gcongr
            · decide
            · omega
        _ < 2 ^ 64 := by omega

/-- The text of a double spells a number that rounds to it, in a raster file with digits that fit
64 bits; a power of ten that is not negative stands after the digits of the decimal found. -/
theorem file_spelled (hcanonical : Canonical m q) (hq : q ≤ 971) :
    ∃ s : Decimal.Spelling, file.magnitude m q = s.chars file.plus ∧ s.Valid ∧
      nearRank (Decimal.ofSpelling s).value = rankAt m q ∧
      (Decimal.ofSpelling s).digits < 2 ^ 64 ∧
      (0 ≤ (Decimal.ofSpelling s).exponent →
        0 < m ∧ Decimal.ofSpelling s = Decimal.shortest .toEven m q) := by
  obtain rfl | hm := m.eq_zero_or_pos
  · have hleast := hcanonical.normal.resolve_left (by decide)
    subst hleast
    have hzero : (Decimal.ofSpelling (plainly ['0'] ['0'])).value = 0 := zero_mul _
    refine ⟨_, magnitude_zero file _, valid_plainly (Decimal.allDigits_replicate 1)
      (Decimal.allDigits_replicate _) (.inl rfl), ?_, by decide, fun h => absurd h (by decide)⟩
    exact (congrArg nearRank hzero).trans nearRank_zero
  · have haround := Decimal.around_shortest file.tie hm hcanonical hq
    have hlt := Decimal.shortest_lt file.tie hm hcanonical hq
    obtain ⟨s, zeros, hchars, hvalid, hpadded, hzeros, hpoint⟩ :=
      decimal_spelled file (Decimal.shortest_pos file.tie hm hcanonical hq)
    rw [magnitude, if_neg hm.ne']
    refine ⟨s, hchars, hvalid, ?_, hpadded ▸ padded_lt hlt hzeros, fun hexponent => ⟨hm, ?_⟩⟩
    · rw [hpadded, Decimal.value_padded]
      exact nearRank_of_around hm hcanonical haround
    · have hzero : zeros = 0 := by
        refine hzeros.resolve_right fun h => ?_
        have hmore := hpoint h.1 rfl
        rw [hpadded] at hexponent
        exact absurd hexponent (not_le.mpr (sub_neg.mpr hmore))
      rw [hpadded, hzero, Decimal.padded_zero]
      rfl

end Layout

end RasterScript.Number
