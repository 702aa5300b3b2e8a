import Mathlib
import RasterScript.Proofs.Number.Rounding

/-! Differences, products, quotients, opposites and doubles of integers are the doubles nearest to
the exact results. -/
namespace RasterScript.Number

open Float.Model (Format UnpackedFloat totalExponent)
open Float.Model.UnpackedFloat (ExtendedMantissa Sign roundWithAccuracy decreaseExponent divCore
  accuracyOfFraction)

/-! ### Rounding what is exact -/

private theorem value_decreaseExponent (m : ℕ) {e t : ℤ} (h : t ≤ e) :
    (decreaseExponent m e t).2 = t ∧ ((decreaseExponent m e t).1 : ℚ) * 2 ^ t = m * 2 ^ e := by
  refine ⟨?_, ?_⟩
  · rw [decreaseExponent]
    omega
  · rw [decreaseExponent, Nat.shiftLeft_eq, Nat.cast_mul, Nat.cast_pow, Nat.cast_ofNat, mul_assoc,
      ← zpow_natCast, ← zpow_add₀ two_ne_zero]
    congr 2
    omega

private theorem toNat_pack_exact {m : ℕ} {e : ℤ} (hm : 0 < m) (he : e ≤ lastPlace (m * 2 ^ e))
    (s : Sign) : (UnpackedFloat.pack .binary64 (roundWithAccuracy .binary64 s m e .exact)).toNat =
      s.toBitVec.toNat * 2 ^ 63 + nearRank (m * 2 ^ e) := by
  refine toNat_pack_round (by positivity) ?_ he s
  rw [mul_div_cancel_right₀ _ (by positivity), expand_natCast]
  rfl

private theorem toNat_pack_round_exact {m : ℕ} (hm : 0 < m) (e : ℤ) (s : Sign) :
    (UnpackedFloat.pack .binary64 (UnpackedFloat.round .binary64 s m e)).toNat =
      s.toBitVec.toNat * 2 ^ 63 + nearRank (m * 2 ^ e) := by
  have htarget : Format.binary64.targetExponent (totalExponent m e) = lastPlace (m * 2 ^ e) := by
    have hfloor : ⌊(m : ℚ) * 2 ^ e / 2 ^ e⌋₊ = m := by
      rw [mul_div_cancel_right₀ _ (by positivity), Nat.floor_natCast]
    rw [← targetExponent_eq_lastPlace (by positivity) (.inl (hfloor ▸ hm.ne')), hfloor]
  rw [UnpackedFloat.round, htarget]
  by_cases he : e ≤ lastPlace (m * 2 ^ e)
  · have hsame : decreaseExponent m e (lastPlace (m * 2 ^ e)) = (m, e) := by
      rw [decreaseExponent, show (e - lastPlace (m * 2 ^ e)).toNat = 0 by omega]
      simp
    rw [hsame]
    exact toNat_pack_exact hm he s
  · obtain ⟨hexponent, hvalue⟩ := value_decreaseExponent m (not_le.mp he).le
    have hpos : 0 < (decreaseExponent m e (lastPlace (m * 2 ^ e))).1 := Nat.shiftLeft_pos_iff.mpr hm
    have hround := toNat_pack_exact hpos (by rw [hvalue]) s
    rw [hvalue] at hround
    simp only [hexponent]
    exact hround

private theorem nearest_normalize {x : Float} {n e : ℤ}
    (h : x.toBits.toNat = (UnpackedFloat.pack .binary64
      (UnpackedFloat.normalize .binary64 n e .positive)).toNat) :
    Nearest x (n * 2 ^ e) := by
  rw [UnpackedFloat.normalize] at h
  obtain hneg | rfl | hpos := lt_trichotomy n 0
  · obtain ⟨k, rfl⟩ := Int.exists_eq_neg_ofNat hneg.le
    have hk : 0 < k := by omega
    rw [Int.compare_eq_lt.mpr hneg, Int.neg_neg, Int.toNat_natCast] at h
    rw [toNat_pack_round_exact hk] at h
    have := nearest_of_bits (by positivity) h
    simpa [withSign] using this
  · rw [Int.cast_zero, zero_mul]
    exact nearest_zero h
  · obtain ⟨k, rfl⟩ := Int.eq_ofNat_of_zero_le hpos.le
    have hk : 0 < k := by omega
    rw [Int.compare_eq_gt.mpr hpos, Int.toNat_natCast] at h
    rw [toNat_pack_round_exact hk] at h
    have := nearest_of_bits (by positivity) h
    simpa [withSign] using this

private theorem withSign_mul_zpow (s : Sign) (m : ℕ) (e : ℤ) :
    withSign s (m * 2 ^ e) = (s.apply m : ℤ) * 2 ^ e := by
  cases s <;> simp [withSign, Sign.apply]

private theorem withSign_neg (s : Sign) (v : ℚ) : withSign (-s) v = -withSign s v := by
  cases s
  · exact (neg_neg v).symm
  · rfl

private theorem withSign_div (s t : Sign) (v w : ℚ) :
    withSign (s / t) (v / w) = withSign s v / withSign t w := by
  cases s <;> cases t
  · exact (neg_div_neg_eq v w).symm
  · exact (neg_div w v).symm
  · exact (div_neg v).symm
  · rfl

private theorem withSign_mul (s t : Sign) (v w : ℚ) :
    withSign (s * t) (v * w) = withSign s v * withSign t w := by
  cases s <;> cases t
  · exact (neg_mul_neg v w).symm
  · exact (neg_mul v w).symm
  · exact (mul_neg v w).symm
  · rfl

/-- The quotient of two numbers by its whole part and what is left. -/
theorem expand_div (m : ℕ) {n : ℕ} (hn : 0 < n) :
    expand ((m : ℚ) / n) =
      ExtendedMantissa.ofMantissaAndAccuracy (m / n) (accuracyOfFraction (m % n) n) := by
  have hlt := Nat.mod_lt m hn
  have hsplit : 2 * m = 2 * (m % n) + 2 * (m / n) * n := by
    have := Nat.div_add_mod' m n
    rw [Nat.mul_assoc]
    omega
  have htwice : 2 * ((m : ℚ) / n) = ((2 * m : ℕ) : ℚ) / n := by
    rw [Nat.cast_mul, Nat.cast_ofNat, mul_div_assoc]
  have hfloor : ⌊2 * ((m : ℚ) / n)⌋₊ = 2 * m / n := by rw [htwice, Nat.floor_div_eq_div]
  have hround : ⌊2 * ((m : ℚ) / n)⌋₊ % 2 = 2 * (m % n) / n % 2 := by
    rw [hfloor, hsplit, Nat.add_mul_div_right _ _ hn]
    omega
  have hexact : (⌊2 * ((m : ℚ) / n)⌋₊ : ℚ) = 2 * ((m : ℚ) / n) ↔ 2 * (m % n) % n = 0 := by
    have hmod : 2 * m % n = 2 * (m % n) % n := by rw [Nat.mul_mod_mod]
    have := Nat.div_add_mod' (2 * m) n
    rw [hfloor, htwice, eq_div_iff (by positivity), ← Nat.cast_mul, Nat.cast_inj]
    omega
  rw [expand, hround, Nat.floor_div_eq_div, accuracyOfFraction]
  simp only [ne_eq, hexact]
  generalize m % n = r at hlt
  obtain rfl | hr := Nat.eq_zero_or_pos r
  · simp [ExtendedMantissa.ofMantissaAndAccuracy]
  · rw [if_neg hr.ne']
    obtain hless | rfl | hmore := lt_trichotomy (2 * r) n
    · rw [Nat.compare_eq_lt.mpr hless, Nat.div_eq_of_lt hless, Nat.mod_eq_of_lt hless]
      simp [ExtendedMantissa.ofMantissaAndAccuracy, hr.ne']
    · rw [Nat.compare_eq_eq.mpr rfl, Nat.div_self hn, Nat.mod_self]
      simp [ExtendedMantissa.ofMantissaAndAccuracy]
    · have hdiv : 2 * r / n = 1 := Nat.div_eq_of_lt_le (by omega) (by omega)
      have hmod : 2 * r % n ≠ 0 := by
        rw [Nat.mod_eq_sub_mod hmore.le, Nat.mod_eq_of_lt (by omega)]
        omega
      rw [Nat.compare_eq_gt.mpr hmore, hdiv]
      simp [ExtendedMantissa.ofMantissaAndAccuracy, hmod]

section Operations

variable {x y : Float} {a b : ℚ}

/-- A mantissa and an exponent of a double are those of a double with either sign. -/
theorem nearest_of_unpacked {z : Float} {s s' : Sign} {m : ℕ} {e : ℤ} {hm : 0 < m}
    (hx : x.toModel.unpack = .finite s m e hm)
    (hz : z.toBits.toNat = (UnpackedFloat.pack .binary64 (.finite s' m e hm)).toNat) :
    Nearest z (withSign s' (m * 2 ^ e)) := by
  obtain ⟨hcanonical, -⟩ := canonical_of_binary ((binary_eq_ofUnpacked x).trans (congrArg _ hx))
  rw [toNat_pack hm hcanonical, ← nearRank_mul_zpow hcanonical] at hz
  exact nearest_of_bits (by positivity) hz

theorem nearest_sub (hx : value? x = some a) (hy : value? y = some b) :
    Nearest (x - y) (a - b) := by
  have hbits : (x - y).toBits.toNat = (UnpackedFloat.pack .binary64
    (UnpackedFloat.sub .binary64 x.toModel.unpack y.toModel.unpack)).toNat := rfl
  obtain ⟨s, hux, rfl⟩ | ⟨s, m, e, hm, hux, rfl⟩ := unpack_of_value hx <;>
    obtain ⟨s', huy, rfl⟩ | ⟨s', m', e', hm', huy, rfl⟩ := unpack_of_value hy <;>
    rw [hux, huy] at hbits
  · obtain ⟨r, hr⟩ : ∃ r : Sign, UnpackedFloat.sub .binary64 (.zero s) (.zero s') = .zero r := by
      cases s <;> cases s' <;> exact ⟨_, rfl⟩
    rw [hr] at hbits
    rw [sub_zero]
    exact nearest_zero hbits
  · rw [zero_sub, ← withSign_neg]
    exact nearest_of_unpacked huy hbits
  · rw [sub_zero]
    exact nearest_of_unpacked hux hbits
  · have hleft := (value_decreaseExponent m (min_le_left e e')).2
    have hright := (value_decreaseExponent m' (min_le_right e e')).2
    have hdiff : withSign s (m * 2 ^ e) - withSign s' (m' * 2 ^ e') =
        ((s.apply (decreaseExponent m e (min e e')).1 -
          s'.apply (decreaseExponent m' e' (min e e')).1 : ℤ) : ℚ) * 2 ^ min e e' := by
      rw [← hleft, ← hright, withSign_mul_zpow, withSign_mul_zpow, Int.cast_sub, sub_mul]
    rw [hdiff]
    exact nearest_normalize hbits

/-- A product has bits down to its last place, or beyond all last places. -/
theorem mul_le_lastPlace {m m' : ℕ} {e e' : ℤ} (hm : 0 < m) (hm' : 0 < m') (h : Canonical m e)
    (h' : Canonical m' e') : e + e' ≤ lastPlace ((m * m' : ℕ) * 2 ^ (e + e')) := by
  have hleast := le_lastPlace ((m * m' : ℕ) * 2 ^ (e + e'))
  obtain ⟨-, hlow, hnormal⟩ := h
  obtain ⟨-, hlow', hnormal'⟩ := h'
  by_cases hsmall : m < 2 ^ 52 ∧ m' < 2 ^ 52
  · have := hnormal.resolve_left (by omega)
    omega
  · have hbits : 2 ^ 52 ≤ m * m' := by
      obtain hlarge | hlarge : 2 ^ 52 ≤ m ∨ 2 ^ 52 ≤ m' := by omega
      · exact hlarge.trans (Nat.le_mul_of_pos_right m hm')
      · exact hlarge.trans (Nat.le_mul_of_pos_left m' hm)
    have hvalue : (2 : ℚ) ^ (52 + (e + e')) ≤ (m * m' : ℕ) * 2 ^ (e + e') := by
      rw [zpow_add₀ two_ne_zero]
      gcongr
      exact_mod_cast hbits
    have := (zpow_lt_zpow_iff_right₀ one_lt_two).mp (hvalue.trans_lt (lt_of_lastPlace _))
    omega

theorem nearest_mul (hx : value? x = some a) (hy : value? y = some b) :
    Nearest (x * y) (a * b) := by
  have hbits : (x * y).toBits.toNat = (UnpackedFloat.pack .binary64
    (UnpackedFloat.mul .binary64 x.toModel.unpack y.toModel.unpack)).toNat := rfl
  obtain ⟨s, hux, rfl⟩ | ⟨s, m, e, hm, hux, rfl⟩ := unpack_of_value hx <;>
    obtain ⟨s', huy, rfl⟩ | ⟨s', m', e', hm', huy, rfl⟩ := unpack_of_value hy <;>
    rw [hux, huy] at hbits
  · rw [mul_zero]
    exact nearest_zero hbits
  · rw [zero_mul]
    exact nearest_zero hbits
  · rw [mul_zero]
    exact nearest_zero hbits
  · obtain ⟨hx', -⟩ := canonical_of_binary ((binary_eq_ofUnpacked x).trans (congrArg _ hux))
    obtain ⟨hy', -⟩ := canonical_of_binary ((binary_eq_ofUnpacked y).trans (congrArg _ huy))
    have hvalue : (m : ℚ) * 2 ^ e * (m' * 2 ^ e') = (m * m' : ℕ) * 2 ^ (e + e') := by
      rw [zpow_add₀ two_ne_zero, Nat.cast_mul]
      ring
    rw [← withSign_mul, hvalue]
    refine nearest_of_bits (by positivity) (hbits.trans ?_)
    exact toNat_pack_exact (Nat.mul_pos hm hm') (mul_le_lastPlace hm hm' hx' hy') _

/-- A quotient starts from bits that reach its last place. -/
theorem divCore_le_lastPlace {m m' : ℕ} (hm : 0 < m) (hm' : 0 < m') (e e' : ℤ) :
    (divCore .binary64 m e m' e').2.1 ≤ lastPlace (m * 2 ^ e / (m' * 2 ^ e')) := by
  have hleast := le_lastPlace ((m : ℚ) * 2 ^ e / (m' * 2 ^ e'))
  have hlow : (2 : ℚ) ^ m.log2 ≤ m := by exact_mod_cast Nat.log2_self_le hm.ne'
  have hhigh : (m' : ℚ) ≤ 2 ^ (m'.log2 + 1) := by exact_mod_cast Nat.lt_log2_self.le
  have hquotient : (2 : ℚ) ^ ((m.log2 : ℤ) + e - ((m'.log2 + 1 : ℕ) + e')) ≤
      m * 2 ^ e / (m' * 2 ^ e') := by
    rw [zpow_sub₀ two_ne_zero, zpow_add₀ two_ne_zero, zpow_add₀ two_ne_zero, zpow_natCast,
      zpow_natCast]
    gcongr
  have := (zpow_lt_zpow_iff_right₀ one_lt_two).mp (hquotient.trans_lt (lt_of_lastPlace _))
  simp only [divCore, totalExponent, Format.targetExponent, Format.mantissaBits, Format.minExponent]
  omega

theorem nearest_div (hx : value? x = some a) (hy : value? y = some b) (hb : b ≠ 0) :
    Nearest (x / y) (a / b) := by
  have hbits : (x / y).toBits.toNat = (UnpackedFloat.pack .binary64
    (UnpackedFloat.div .binary64 x.toModel.unpack y.toModel.unpack)).toNat := rfl
  obtain ⟨s', huy, rfl⟩ | ⟨s', m', e', hm', huy, rfl⟩ := unpack_of_value hy
  · exact absurd rfl hb
  · obtain ⟨s, hux, rfl⟩ | ⟨s, m, e, hm, hux, rfl⟩ := unpack_of_value hx <;>
      rw [hux, huy] at hbits
    · rw [zero_div]
      exact nearest_zero hbits
    · rw [← withSign_div]
      refine nearest_of_bits (by positivity) (hbits.trans ?_)
      refine toNat_pack_round (by positivity) ?_ (divCore_le_lastPlace hm hm' e e') _
      rw [divCore, ← expand_div _ hm', Nat.shiftLeft_eq, Nat.cast_mul, Nat.cast_pow, Nat.cast_ofNat]
      congr 1
      have hle := min_le_left (e - e') (Format.binary64.targetExponent
        (totalExponent m e - totalExponent m' e'))
      generalize min (e - e') (Format.binary64.targetExponent
        (totalExponent m e - totalExponent m' e')) = t at hle
      rw [← zpow_natCast, Int.toNat_of_nonneg (by omega), zpow_sub₀ two_ne_zero,
        zpow_sub₀ two_ne_zero]
      field_simp

end Operations

theorem toNat_pack_infinity (s : Sign) :
    (UnpackedFloat.pack .binary64 (.infinity s)).toNat =
      s.toBitVec.toNat * 2 ^ 63 + infinityRank := by
  cases s <;> decide

/-- Only the sign tells a number from its negative. -/
theorem bits_neg {x : Float} (h : x.isNaN = false) :
    ∃ (s : Sign) (r : ℕ), r ≤ infinityRank ∧ x.toBits.toNat = s.toBitVec.toNat * 2 ^ 63 + r ∧
      (-x).toBits.toNat = (-s).toBitVec.toNat * 2 ^ 63 + r := by
  have hbits := toBits_eq_pack x
  have hneg : (-x).toBits.toNat = (UnpackedFloat.pack .binary64 x.toModel.unpack.neg).toNat := rfl
  cases hx : x.toModel.unpack with
  | notANumber =>
    have hnan : x.toModel.unpack.isNaN = false := h
    rw [hx] at hnan
    cases hnan
  | infinity s =>
    rw [hx, toNat_pack_infinity] at hbits
    rw [hx] at hneg
    exact ⟨s, infinityRank, le_rfl, hbits, hneg.trans (toNat_pack_infinity _)⟩
  | zero s =>
    rw [hx, toNat_pack_zero] at hbits
    rw [hx] at hneg
    refine ⟨s, 0, Nat.zero_le _, ?_, ?_⟩
    · rw [hbits, Nat.add_zero]
    · rw [hneg, UnpackedFloat.neg, toNat_pack_zero, Nat.add_zero]
  | finite s m e hm =>
    obtain ⟨hcanonical, -⟩ := canonical_of_binary ((binary_eq_ofUnpacked x).trans (congrArg _ hx))
    rw [hx, toNat_pack hm hcanonical] at hbits
    rw [hx] at hneg
    exact ⟨s, rankAt m e, min_le_right .., hbits, hneg.trans (toNat_pack hm hcanonical _)⟩

theorem nearestRank_neg (v : ℚ) : nearestRank (-v) = -nearestRank v := by
  obtain hv | hv := le_total 0 v
  · rw [show -v = withSign .negative v from rfl, nearestRank_withSign _ hv,
      show nearestRank v = nearestRank (withSign .positive v) from rfl, nearestRank_withSign _ hv]
    rfl
  · obtain ⟨w, hw, rfl⟩ : ∃ w, 0 ≤ w ∧ v = -w := ⟨-v, by linarith, (neg_neg v).symm⟩
    rw [neg_neg, show -w = withSign .negative w from rfl, nearestRank_withSign _ hw,
      show nearestRank w = nearestRank (withSign .positive w) from rfl, nearestRank_withSign _ hw]
    exact (neg_neg _).symm

theorem nearest_neg {x : Float} {v : ℚ} (h : Nearest x v) : Nearest (-x) (-v) := by
  obtain ⟨s, r, hr, hbits, hneg⟩ := bits_neg h.number
  obtain ⟨-, hrank⟩ := number_of_bits hr hbits
  obtain ⟨hnumber, hrank'⟩ := number_of_bits hr hneg
  refine ⟨hnumber, ?_⟩
  rw [hrank', nearestRank_neg, ← h.rank_eq, hrank]
  cases s
  · exact (neg_neg _).symm
  · rfl

/-- Digits and zeros that are too many for an exact product are rounded once. -/
theorem nearest_ofScientific {n k : ℕ} (hn : 0 < n) (hk : k ≤ 2 ^ 11)
    (hlarge : ¬(n < 2 ^ 53 ∧ k ≤ 22)) : Nearest (Float.ofScientific n false k) (n * 10 ^ k) := by
  -- The digits stand with zeros behind the point, times the power of ten.
  have hpos : 0 < n <<< 53 * 10 ^ k :=
    Nat.mul_pos (Nat.shiftLeft_pos_iff.mpr hn) (Nat.pow_pos (by decide))
  have hvalue : ((n <<< 53 * 10 ^ k : ℕ) : ℚ) * 2 ^ (-53 : ℤ) = n * 10 ^ k := by
    rw [Nat.shiftLeft_eq, Nat.cast_mul, Nat.cast_mul, Nat.cast_pow, Nat.cast_pow, mul_right_comm,
      mul_assoc (n : ℚ), zpow_neg]
    norm_num
  have hplace : -53 ≤ lastPlace ((n : ℚ) * 10 ^ k) := by
    have hone : (2 : ℚ) ^ (0 : ℤ) ≤ n * 10 ^ k := by
      have hwhole : 1 ≤ n * 10 ^ k := Nat.mul_pos hn (Nat.pow_pos (by decide))
      exact_mod_cast hwhole
    have := (zpow_lt_zpow_iff_right₀ one_lt_two).mp (hone.trans_lt (lt_of_lastPlace _))
    omega
  have hmodel : (Float.ofScientific n false k).toBits.toNat = (UnpackedFloat.pack .binary64
      (roundWithAccuracy .binary64 .positive (n <<< 53 * 10 ^ k) (-53) .exact)).toNat := by
    unfold Float.ofScientific
    rw [dif_neg hlarge]
    show (UnpackedFloat.pack .binary64 (UnpackedFloat.ofScientific .binary64 n k)).toNat = _
    rw [UnpackedFloat.ofScientific, dif_neg hn.ne',
      if_neg (show ¬(k : ℤ) > (2 : ℤ) ^ 11 by omega),
      if_neg (show ¬(k : ℤ) < -((2 : ℤ) ^ 11 + n.log2) by omega), if_pos (Int.natCast_nonneg k)]
    rfl
  rw [toNat_pack_exact hpos (by rw [hvalue]; exact hplace), hvalue] at hmodel
  exact nearest_of_bits (s := .positive) (by positivity) hmodel

theorem nearest_ofNat (n : ℕ) : Nearest (Float.ofNat n) n := by
  obtain rfl | hpos := Nat.eq_zero_or_pos n
  · have hzero : value? (Float.ofNat 0) = some 0 := by decide +kernel
    rw [Nat.cast_zero]
    exact nearest_of_value hzero
  · by_cases hn : n < 2 ^ 53
    · refine nearest_of_value ?_
      rw [value?, binary_ofNat hpos hn]
      simp [zpow_neg]
    · have hround := nearest_ofScientific hpos (k := 0) (by decide) (fun h => hn h.1)
      rw [pow_zero, mul_one] at hround
      unfold Float.ofNat
      exact hround

theorem nearest_ofInt (n : ℤ) : Nearest (Float.ofInt n) n := by
  cases n with
  | ofNat n =>
    rw [Int.ofNat_eq_natCast, Int.cast_natCast]
    exact nearest_ofNat n
  | negSucc n =>
    have h := nearest_neg (nearest_ofNat (n + 1))
    rwa [← Int.cast_natCast, ← Int.cast_neg] at h

end RasterScript.Number
