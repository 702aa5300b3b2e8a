import Mathlib
import RasterScript.Proofs.Number.Values

/-! Rounding to doubles. The bits of a double, read as a number, are its rank among the doubles;
rounding a rational number gives the double of the nearest rank, which never falls as the number
grows. -/
namespace RasterScript.Number

open Float.Model (Format UnpackedFloat totalExponent)
open Float.Model.UnpackedFloat (ExtendedMantissa Sign Accuracy shiftToTargetExponent shiftToExponent
  roundWithAccuracy packComponents)

/-! ### Whole parts and what follows -/

/-- A number that is not negative by its whole part, its next bit, and whether anything follows. -/
def expand (a : ℚ) : ExtendedMantissa where
  mantissa := ⌊a⌋₊
  roundBit := ⌊2 * a⌋₊ % 2 != 0
  stickyBit := decide ((⌊2 * a⌋₊ : ℚ) ≠ 2 * a)

private theorem floor_two_mul_natCast (m : ℕ) : ⌊2 * (m : ℚ)⌋₊ = 2 * m := by
  rw [show 2 * (m : ℚ) = ((2 * m : ℕ) : ℚ) by push_cast; ring, Nat.floor_natCast]

private theorem floor_two_mul_div_two (a : ℚ) : ⌊2 * a⌋₊ / 2 = ⌊a⌋₊ := by
  rw [← Nat.floor_div_natCast, Nat.cast_ofNat, mul_div_cancel_left₀ a two_ne_zero]

theorem expand_natCast (m : ℕ) : expand m = ⟨m, false, false⟩ := by
  rw [expand, floor_two_mul_natCast, Nat.floor_natCast]
  simp

private theorem shiftRightOne_expand (a : ℚ) : (expand a).shiftRightOne = expand (a / 2) := by
  have hhalf := floor_two_mul_div_two a
  -- Nothing follows the next bit of the half if nothing follows the number itself.
  have hrest : (⌊a⌋₊ : ℚ) = a ↔ ⌊2 * a⌋₊ % 2 = 0 ∧ (⌊2 * a⌋₊ : ℚ) = 2 * a := by
    constructor
    · intro h
      have htwice : ⌊2 * a⌋₊ = 2 * ⌊a⌋₊ := by rw [← floor_two_mul_natCast, h]
      refine ⟨by omega, ?_⟩
      rw [htwice, Nat.cast_mul, h, Nat.cast_ofNat]
    · rintro ⟨heven, h⟩
      have htwice : ⌊2 * a⌋₊ = 2 * ⌊a⌋₊ := by omega
      rw [htwice, Nat.cast_mul, Nat.cast_ofNat] at h
      exact mul_left_cancel₀ two_ne_zero h
  rw [expand, ExtendedMantissa.shiftRightOne, expand, mul_div_cancel₀ a two_ne_zero]
  congr 1
  · exact (Nat.floor_div_natCast a 2).symm
  · rw [Bool.eq_iff_iff]
    simp only [Bool.or_eq_true, bne_iff_ne, decide_eq_true_eq, ne_eq, hrest]
    tauto

private theorem shift_expand (a : ℚ) (k : ℕ) : expand a >>> k = expand (a / 2 ^ k) := by
  show k.repeat ExtendedMantissa.shiftRightOne _ = _
  induction k with
  | zero => rw [Nat.repeat, pow_zero, div_one]
  | succ k ih => rw [Nat.repeat, ih, shiftRightOne_expand, pow_succ, div_div]

/-- The nearest integer, a half to the even neighbour. -/
def nearestEven (a : ℚ) : ℕ := (expand a).roundedMantissa

private theorem nearestEven_natCast (n : ℕ) : nearestEven n = n := by
  rw [nearestEven, expand_natCast]
  rfl

theorem nearestEven_eq (a : ℚ) :
    nearestEven a =
      if ⌊2 * a⌋₊ % 2 = 0 then ⌊a⌋₊
      else if (⌊2 * a⌋₊ : ℚ) = 2 * a then ⌊a⌋₊ + ⌊a⌋₊ % 2 else ⌊a⌋₊ + 1 := by
  have hround : (expand a).roundBit = decide (⌊2 * a⌋₊ % 2 ≠ 0) := by
    show (⌊2 * a⌋₊ % 2 != 0) = _
    rw [Bool.eq_iff_iff, bne_iff_ne, decide_eq_true_eq]
  have hrest : (expand a).stickyBit = decide ((⌊2 * a⌋₊ : ℚ) ≠ 2 * a) := rfl
  have hwhole : (expand a).mantissa = ⌊a⌋₊ := rfl
  rw [nearestEven]
  generalize expand a = em at hround hrest hwhole
  obtain ⟨m, round, rest⟩ := em
  simp only at hround hrest hwhole
  subst hround hrest hwhole
  by_cases h : ⌊2 * a⌋₊ % 2 = 0 <;> by_cases h' : (⌊2 * a⌋₊ : ℚ) = 2 * a <;>
    simp only [h, h', ne_eq, not_true, not_false_iff, decide_true, decide_false, if_true,
      if_false] <;>
    rfl

private theorem le_nearestEven (a : ℚ) : ⌊a⌋₊ ≤ nearestEven a := by
  rw [nearestEven_eq]
  split_ifs <;> omega

private theorem nearestEven_le (a : ℚ) : nearestEven a ≤ ⌊a⌋₊ + 1 := by
  rw [nearestEven_eq]
  split_ifs <;> omega

private theorem nearestEven_mono {a b : ℚ} (ha : 0 ≤ a) (h : a ≤ b) :
    nearestEven a ≤ nearestEven b := by
  obtain hlt | hfloor := (Nat.floor_mono h).lt_or_eq
  · have := nearestEven_le a
    have := le_nearestEven b
    omega
  · have hhalf := floor_two_mul_div_two a
    have hhalf' := floor_two_mul_div_two b
    have htwice : ⌊2 * a⌋₊ ≤ ⌊2 * b⌋₊ := Nat.floor_mono (by linarith)
    by_cases hround : ⌊2 * a⌋₊ % 2 = 0
    · have := le_nearestEven b
      rw [nearestEven_eq a, if_pos hround]
      omega
    · have hsame : ⌊2 * a⌋₊ = ⌊2 * b⌋₊ := by omega
      by_cases hexact : (⌊2 * b⌋₊ : ℚ) = 2 * b
      · have hle := Nat.floor_le (show 0 ≤ 2 * a by linarith)
        rw [hsame, hexact] at hle
        obtain rfl : a = b := by linarith
        exact le_rfl
      · have := nearestEven_le a
        rw [nearestEven_eq b, if_neg (hsame ▸ hround), if_neg hexact]
        omega

/-! ### The last place of a double -/

/-- The exponent of the last bit that a double near a number has. -/
def lastPlace (v : ℚ) : ℤ := Int.log 2 (max v (2 ^ (-1022 : ℤ))) - 52

private theorem lastPlace_mono {v w : ℚ} (h : v ≤ w) : lastPlace v ≤ lastPlace w := by
  have hlog : Int.log 2 (max v (2 ^ (-1022 : ℤ))) ≤ Int.log 2 (max w (2 ^ (-1022 : ℤ))) :=
    Int.log_mono_right (lt_max_of_lt_right (by positivity)) (max_le_max_right _ h)
  rw [lastPlace, lastPlace]
  omega

theorem le_lastPlace (v : ℚ) : -1074 ≤ lastPlace v := by
  have hlog : Int.log 2 ((2 : ℕ) ^ (-1022 : ℤ) : ℚ) ≤ Int.log 2 (max v (2 ^ (-1022 : ℤ))) :=
    Int.log_mono_right (by positivity) (le_max_right ..)
  rw [Int.log_zpow Nat.one_lt_two] at hlog
  rw [lastPlace]
  omega

theorem lt_of_lastPlace (v : ℚ) : v < 2 ^ (lastPlace v + 53) := by
  have hlt := Int.lt_zpow_succ_log_self (b := 2) Nat.one_lt_two (max v (2 ^ (-1022 : ℤ)))
  rw [Nat.cast_ofNat] at hlt
  rw [lastPlace, show Int.log 2 (max v (2 ^ (-1022 : ℤ))) - 52 + 53 =
    Int.log 2 (max v (2 ^ (-1022 : ℤ))) + 1 by ring]
  exact (le_max_left ..).trans_lt hlt

private theorem le_of_lastPlace {v : ℚ} (h : lastPlace v ≠ -1074) : 2 ^ (lastPlace v + 52) ≤ v := by
  have hpos : (0 : ℚ) < max v (2 ^ (-1022 : ℤ)) := lt_max_of_lt_right (by positivity)
  have hle := Int.zpow_log_le_self (b := 2) Nat.one_lt_two hpos
  rw [Nat.cast_ofNat] at hle
  rw [lastPlace, sub_add_cancel]
  obtain hv | hv := le_total v (2 ^ (-1022 : ℤ))
  · refine absurd ?_ h
    have hlog := Int.log_zpow (R := ℚ) Nat.one_lt_two (-1022)
    rw [Nat.cast_ofNat] at hlog
    rw [lastPlace, max_eq_right hv, hlog]
    rfl
  · rwa [max_eq_left hv] at hle ⊢

theorem lastPlace_eq {v : ℚ} {t : ℤ} (hleast : -1074 ≤ t) (hlt : v < 2 ^ (t + 53))
    (hle : 2 ^ (t + 52) ≤ v ∨ t = -1074) : lastPlace v = t := by
  have htwo : (1 : ℚ) < 2 := one_lt_two
  apply le_antisymm
  · by_contra hcon
    have hge := le_of_lastPlace (v := v) (by omega)
    have := (zpow_lt_zpow_iff_right₀ htwo).mp (hge.trans_lt hlt)
    omega
  · obtain hle | rfl := hle
    · have := (zpow_lt_zpow_iff_right₀ htwo).mp (hle.trans_lt (lt_of_lastPlace v))
      omega
    · exact le_lastPlace v

/-! ### Ranks -/

/-- The rank of infinity: its bits as a number. -/
def infinityRank : ℕ := 2047 * 2 ^ 52

/-- The rank of `n * 2 ^ t` among the doubles that are not negative. -/
def rankAt (n : ℕ) (t : ℤ) : ℕ := min (n + (t + 1074).toNat * 2 ^ 52) infinityRank

/-- The rank of the double nearest to a number that is not negative. -/
def nearRank (v : ℚ) : ℕ := rankAt (nearestEven (v / 2 ^ lastPlace v)) (lastPlace v)

private theorem nearestEven_le_bits {v : ℚ} (hv : 0 ≤ v) :
    nearestEven (v / 2 ^ lastPlace v) ≤ 2 ^ 53 := by
  have hlt := lt_of_lastPlace v
  rw [zpow_add₀ two_ne_zero] at hlt
  have hdiv : v / 2 ^ lastPlace v < 2 ^ (53 : ℤ) := (div_lt_iff₀' (by positivity)).mpr hlt
  have hfloor : ⌊v / 2 ^ lastPlace v⌋₊ < 2 ^ 53 := (Nat.floor_lt (by positivity)).mpr (by
    rw [Nat.cast_pow, Nat.cast_ofNat]
    exact_mod_cast hdiv)
  have := nearestEven_le (v / 2 ^ lastPlace v)
  omega

private theorem bits_le_nearestEven {v : ℚ} (h : lastPlace v ≠ -1074) :
    2 ^ 52 ≤ nearestEven (v / 2 ^ lastPlace v) := by
  have hle := le_of_lastPlace h
  rw [zpow_add₀ two_ne_zero] at hle
  have hdiv : 2 ^ (52 : ℤ) ≤ v / 2 ^ lastPlace v := (le_div_iff₀' (by positivity)).mpr hle
  refine le_trans (Nat.le_floor ?_) (le_nearestEven _)
  rw [Nat.cast_pow, Nat.cast_ofNat]
  exact_mod_cast hdiv

/-- Rounding keeps the order. -/
theorem nearRank_mono {v w : ℚ} (hv : 0 ≤ v) (h : v ≤ w) : nearRank v ≤ nearRank w := by
  have hplace := lastPlace_mono h
  have hleast := le_lastPlace v
  refine min_le_min_right _ ?_
  obtain hlt | heq := hplace.lt_or_eq
  · have hhigh := nearestEven_le_bits hv
    have hlow := bits_le_nearestEven (v := w) (by omega)
    have hnext : (lastPlace v + 1074).toNat + 1 ≤ (lastPlace w + 1074).toNat := by omega
    have := Nat.mul_le_mul_right (2 ^ 52) hnext
    omega
  · have hmono : nearestEven (v / 2 ^ lastPlace w) ≤ nearestEven (w / 2 ^ lastPlace w) :=
      nearestEven_mono (by positivity) (by gcongr)
    rw [heq]
    omega

/-! ### Rounding in the model of doubles -/

/-- A mantissa and an exponent as a double has them, were it not for its largest exponent. -/
structure Canonical (n : ℕ) (t : ℤ) : Prop where
  lt : n < 2 ^ 53
  least : -1074 ≤ t
  normal : 2 ^ 52 ≤ n ∨ t = -1074

theorem toNat_pack {n : ℕ} {t : ℤ} (hn : 0 < n) (h : Canonical n t) (s : Sign) :
    (UnpackedFloat.pack .binary64 (.finite s n t hn)).toNat =
      s.toBitVec.toNat * 2 ^ 63 + rankAt n t := by
  obtain ⟨hlt, hleast, hnormal⟩ := h
  have hbiased : (t + ((Format.binary64.exponentBias : ℕ) : ℤ) + ((52 : ℕ) : ℤ)).toNat =
      (t + 1075).toNat := by
    rw [show Format.binary64.exponentBias = 1023 by decide]
    omega
  have hbits : n.log2 + 1 = Format.binary64.mantissaBits ↔ 2 ^ 52 ≤ n := by
    rw [show Format.binary64.mantissaBits = 52 + 1 from rfl, Nat.add_right_cancel_iff,
      Nat.log2_eq_iff hn.ne']
    omega
  rw [UnpackedFloat.pack, rankAt, infinityRank]
  simp only [hbiased, hbits]
  split
  · next hinf =>
    rw [UnpackedFloat.packedInfinity, toNat_packComponents]
    have hmax : (-1#11).toNat = 2047 := by decide
    have hnone : (0 : BitVec 52).toNat = 0 := rfl
    rw [hmax, hnone]
    omega
  · next hfin =>
    split
    · next hmany =>
      rw [toNat_packComponents, BitVec.toNat_ofNat, BitVec.toNat_ofNat]
      omega
    · next hfew =>
      obtain rfl := hnormal.resolve_left hfew
      rw [toNat_packComponents, BitVec.toNat_ofNat, BitVec.toNat_ofNat]
      omega

theorem toNat_pack_zero (s : Sign) :
    (UnpackedFloat.pack .binary64 (.zero s)).toNat = s.toBitVec.toNat * 2 ^ 63 := by
  cases s <;> decide

/-- The whole part of a number shows where its last place is. -/
theorem targetExponent_eq_lastPlace {v : ℚ} {e : ℤ} (hv : 0 < v)
    (he : ⌊v / 2 ^ e⌋₊ ≠ 0 ∨ e ≤ lastPlace v) :
    Format.binary64.targetExponent (totalExponent ⌊v / 2 ^ e⌋₊ e) = lastPlace v := by
  have hpow : (0 : ℚ) < 2 ^ e := by positivity
  have hle : (⌊v / 2 ^ e⌋₊ : ℚ) * 2 ^ e ≤ v :=
    (le_div_iff₀ hpow).mp (Nat.floor_le (by positivity))
  have hlt : v < (⌊v / 2 ^ e⌋₊ + 1 : ℕ) * 2 ^ e := by
    rw [← div_lt_iff₀ hpow, Nat.cast_add, Nat.cast_one]
    exact Nat.lt_floor_add_one _
  generalize ⌊v / 2 ^ e⌋₊ = m at hle hlt he
  have htarget : Format.binary64.targetExponent (totalExponent m e) =
      max ((m.log2 : ℤ) + e - 52) (-1074) := by
    simp only [totalExponent, Format.targetExponent, Format.mantissaBits, Format.minExponent]
    omega
  rw [htarget]
  refine (lastPlace_eq (le_max_right ..) ?_ ?_).symm
  · have hm : ((m + 1 : ℕ) : ℚ) ≤ 2 ^ (m.log2 + 1) := by exact_mod_cast Nat.lt_log2_self
    calc v < (m + 1 : ℕ) * 2 ^ e := hlt
      _ ≤ 2 ^ (m.log2 + 1) * 2 ^ e := by gcongr
      _ = 2 ^ (((m.log2 + 1 : ℕ) : ℤ) + e) := by rw [zpow_add₀ two_ne_zero, zpow_natCast]
      _ ≤ 2 ^ (max ((m.log2 : ℤ) + e - 52) (-1074) + 53) :=
        zpow_le_zpow_right₀ one_le_two (by omega)
  · by_cases hmax : max ((m.log2 : ℤ) + e - 52) (-1074) = -1074
    · exact .inr hmax
    · left
      have hm : m ≠ 0 := by
        -- With no whole part the number is too small for any other last place.
        rintro rfl
        have he := he.resolve_left (fun h => h rfl)
        rw [zero_add, Nat.cast_one, one_mul] at hlt
        have hleast : lastPlace v = -1074 := by
          by_contra hcon
          have := (zpow_lt_zpow_iff_right₀ one_lt_two).mp ((le_of_lastPlace hcon).trans_lt hlt)
          omega
        rw [Nat.log2_zero] at hmax
        omega
      calc (2 : ℚ) ^ (max ((m.log2 : ℤ) + e - 52) (-1074) + 52) = 2 ^ ((m.log2 : ℤ) + e) := by
            congr 1
            omega
        _ = 2 ^ m.log2 * 2 ^ e := by rw [zpow_add₀ two_ne_zero, zpow_natCast]
        _ ≤ m * 2 ^ e := by
            gcongr
            exact_mod_cast Nat.log2_self_le hm
        _ ≤ v := hle

/-- A mantissa that rounding has made too long by one bit ends in a zero. -/
theorem shift_rounded {n : ℕ} {t : ℤ} (hn : n ≤ 2 ^ 53) (ht : -1074 ≤ t) :
    shiftToTargetExponent .binary64 n t .exact =
      if n = 2 ^ 53 then (⟨2 ^ 52, false, false⟩, t + 1) else (⟨n, false, false⟩, t) := by
  rw [shiftToTargetExponent, shiftToExponent]
  split
  · next hcarry =>
    subst hcarry
    have htarget : (Format.binary64.targetExponent (totalExponent (2 ^ 53) t) - t).toNat = 1 := by
      simp only [totalExponent, Format.targetExponent, Format.mantissaBits, Format.minExponent,
        Nat.log2_two_pow]
      omega
    rw [htarget]
    rfl
  · next hshort =>
    have hlog : n.log2 ≤ 52 := by
      obtain rfl | hpos := Nat.eq_zero_or_pos n
      · decide
      · have := (Nat.log2_lt hpos.ne').mpr (show n < 2 ^ 53 by omega)
        omega
    have htarget : (Format.binary64.targetExponent (totalExponent n t) - t).toNat = 0 := by
      simp only [totalExponent, Format.targetExponent, Format.mantissaBits, Format.minExponent]
      omega
    rw [htarget, Int.natCast_zero, Int.add_zero]
    rfl

/-- A double from a rounded mantissa and its exponent. -/
def ofRounded (s : Sign) (n : ℕ) (t : ℤ) : UnpackedFloat :=
  let shifted := shiftToTargetExponent .binary64 n t .exact
  if h : shifted.1.mantissa = 0 then .zero s
  else .finite s shifted.1.mantissa shifted.2 (Nat.pos_of_ne_zero h)

private theorem toNat_pack_ofRounded {n : ℕ} {t : ℤ} (hn : n ≤ 2 ^ 53) (ht : -1074 ≤ t)
    (hnormal : 2 ^ 52 ≤ n ∨ t = -1074) (s : Sign) :
    (UnpackedFloat.pack .binary64 (ofRounded s n t)).toNat =
      s.toBitVec.toNat * 2 ^ 63 + rankAt n t := by
  have hshift := shift_rounded hn ht
  by_cases hcarry : n = 2 ^ 53
  · rw [if_pos hcarry] at hshift
    have hdouble : ofRounded s n t = .finite s (2 ^ 52) (t + 1) (by decide) := by
      simp only [ofRounded, hshift]
      rfl
    rw [hdouble, toNat_pack _ ⟨by decide, by omega, .inl le_rfl⟩, rankAt, rankAt]
    omega
  · rw [if_neg hcarry] at hshift
    by_cases hzero : n = 0
    · have hdouble : ofRounded s n t = .zero s := by
        simp only [ofRounded, hshift, dif_pos hzero]
      rw [hdouble, toNat_pack_zero, rankAt]
      omega
    · have hdouble : ofRounded s n t = .finite s n t (Nat.pos_of_ne_zero hzero) := by
        simp only [ofRounded, hshift, dif_neg hzero]
      rw [hdouble, toNat_pack _ ⟨by omega, ht, hnormal⟩]

/-- Rounding gives the bits of the nearest double, whatever bits it starts from. -/
theorem toNat_pack_round {m : ℕ} {e : ℤ} {accuracy : Accuracy} {v : ℚ} (hv : 0 < v)
    (hm : ExtendedMantissa.ofMantissaAndAccuracy m accuracy = expand (v / 2 ^ e))
    (he : e ≤ lastPlace v) (s : Sign) :
    (UnpackedFloat.pack .binary64 (roundWithAccuracy .binary64 s m e accuracy)).toNat =
      s.toBitVec.toNat * 2 ^ 63 + nearRank v := by
  have hwhole : m = ⌊v / 2 ^ e⌋₊ := by
    have hmantissa := congrArg ExtendedMantissa.mantissa hm
    rcases accuracy with _ | (_ | _ | _) <;> exact hmantissa
  have hfirst : shiftToTargetExponent .binary64 m e accuracy =
      (expand (v / 2 ^ lastPlace v), lastPlace v) := by
    have hdiv : v / 2 ^ e / 2 ^ (lastPlace v - e).toNat = v / 2 ^ lastPlace v := by
      rw [div_div, ← zpow_natCast, ← zpow_add₀ two_ne_zero]
      congr 2
      omega
    rw [shiftToTargetExponent, hwhole, targetExponent_eq_lastPlace hv (.inr he), shiftToExponent,
      ← hwhole, hm, shift_expand, hdiv]
    congr 1
    omega
  have hround : roundWithAccuracy .binary64 s m e accuracy =
      ofRounded s (nearestEven (v / 2 ^ lastPlace v)) (lastPlace v) := by
    rw [roundWithAccuracy, hfirst]
    rfl
  rw [hround, toNat_pack_ofRounded (nearestEven_le_bits hv.le) (le_lastPlace v)
    ((em (lastPlace v = -1074)).symm.imp_left bits_le_nearestEven)]
  rfl

/-! ### Doubles and their ranks -/

/-- The rank of a double: its bits as a number, negative with a sign. -/
def rank (x : Float) : ℤ :=
  if x.toBits.toNat < 2 ^ 63 then x.toBits.toNat else -((x.toBits.toNat - 2 ^ 63 : ℕ) : ℤ)

/-- A number with a sign. -/
def withSign (s : Sign) (v : ℚ) : ℚ :=
  match s with
  | .negative => -v
  | .positive => v

/-- The rank of the double nearest to a number. -/
def nearestRank (v : ℚ) : ℤ := if v < 0 then -(nearRank (-v) : ℤ) else nearRank v

/-- A double is the one nearest to a number; where no double is large enough, an infinity is. -/
structure Nearest (x : Float) (v : ℚ) : Prop where
  number : x.isNaN = false
  rank_eq : rank x = nearestRank v

private theorem nearRank_le (v : ℚ) : nearRank v ≤ infinityRank := min_le_right ..

theorem nearRank_mul_zpow {n : ℕ} {t : ℤ} (h : Canonical n t) :
    nearRank (n * 2 ^ t) = rankAt n t := by
  have hplace : lastPlace ((n : ℚ) * 2 ^ t) = t := by
    refine lastPlace_eq h.least ?_ (h.normal.imp_left fun hn => ?_)
    · rw [add_comm, zpow_add₀ two_ne_zero]
      gcongr
      exact_mod_cast h.lt
    · rw [add_comm, zpow_add₀ two_ne_zero]
      gcongr
      exact_mod_cast hn
  rw [nearRank, hplace, mul_div_cancel_right₀ _ (by positivity), nearestEven_natCast]

theorem nearRank_zero : nearRank 0 = 0 := by
  have h := nearRank_mul_zpow ⟨by decide, le_rfl, .inr rfl⟩ (n := 0) (t := -1074)
  rw [Nat.cast_zero, zero_mul] at h
  rw [h]
  decide

theorem nearestRank_withSign (s : Sign) {v : ℚ} (hv : 0 ≤ v) :
    nearestRank (withSign s v) = s.apply (nearRank v) := by
  cases s with
  | positive => exact if_neg hv.not_gt
  | negative =>
    obtain rfl | hpos := hv.eq_or_lt
    · rw [withSign, neg_zero, nearestRank, if_neg (lt_irrefl 0), nearRank_zero]
      rfl
    · rw [withSign, nearestRank, if_pos (neg_lt_zero.mpr hpos), neg_neg]
      rfl

theorem nearestRank_mono {v w : ℚ} (h : v ≤ w) : nearestRank v ≤ nearestRank w := by
  rw [nearestRank, nearestRank]
  split
  · next hv =>
    split
    · next hw =>
      have := nearRank_mono (v := -w) (w := -v) (by linarith) (by linarith)
      omega
    · omega
  · next hv =>
    rw [if_neg (by linarith)]
    exact_mod_cast nearRank_mono (not_lt.mp hv) h

theorem number_of_bits {x : Float} {s : Sign} {r : ℕ} (hr : r ≤ infinityRank)
    (h : x.toBits.toNat = s.toBitVec.toNat * 2 ^ 63 + r) :
    x.isNaN = false ∧ rank x = s.apply r := by
  rw [infinityRank] at hr
  constructor
  · have hnan : Float.nan.toBits.toNat = 0x7ff8000000000000 := by decide +kernel
    rw [Float.isNaN_eq_decide_eq_nan, decide_eq_false_iff_not]
    rintro rfl
    rw [hnan] at h
    cases s with
    | negative =>
      rw [show Sign.negative.toBitVec.toNat = 1 from rfl] at h
      omega
    | positive =>
      rw [show Sign.positive.toBitVec.toNat = 0 from rfl] at h
      omega
  · rw [rank, h]
    cases s with
    | negative =>
      rw [show Sign.negative.toBitVec.toNat = 1 from rfl, if_neg (by omega), Sign.apply]
      omega
    | positive =>
      rw [show Sign.positive.toBitVec.toNat = 0 from rfl, if_pos (by omega), Sign.apply]
      omega

theorem nearest_of_bits {x : Float} {s : Sign} {v : ℚ} (hv : 0 ≤ v)
    (h : x.toBits.toNat = s.toBitVec.toNat * 2 ^ 63 + nearRank v) : Nearest x (withSign s v) := by
  obtain ⟨hnumber, hrank⟩ := number_of_bits (nearRank_le v) h
  exact ⟨hnumber, hrank.trans (nearestRank_withSign s hv).symm⟩

theorem nearest_zero {x : Float} {s : Sign}
    (h : x.toBits.toNat = (UnpackedFloat.pack .binary64 (.zero s)).toNat) : Nearest x 0 := by
  have hzero : withSign s 0 = 0 := by cases s <;> simp [withSign]
  rw [← hzero]
  refine nearest_of_bits le_rfl ?_
  rw [h, toNat_pack_zero, nearRank_zero, Nat.add_zero]

/-! ### Values -/

theorem canonical_of_binary {x : Float} {negative : Bool} {m : ℕ} {q : ℤ}
    (h : Binary.ofFloat x = .finite negative m q) : Canonical m q ∧ q ≤ 971 := by
  have hfraction : x.toBits.toNat % twoTo 52 < 2 ^ 52 := Nat.mod_lt _ (by decide)
  have hfield : x.toBits.toNat / twoTo 52 % twoTo 11 < 2 ^ 11 := Nat.mod_lt _ (by decide)
  have hone : twoTo 52 = 2 ^ 52 := rfl
  rw [Binary.ofFloat, Binary.ofBits] at h
  simp only [beq_iff_eq] at h
  split at h
  · split at h <;> cases h
  · next hmax =>
    split at h
    · obtain ⟨-, rfl, rfl⟩ := Binary.finite.inj h
      exact ⟨⟨by omega, le_rfl, .inr rfl⟩, by decide⟩
    · next hzero =>
      obtain ⟨-, rfl, rfl⟩ := Binary.finite.inj h
      exact ⟨⟨by omega, by omega, .inl (by omega)⟩, by omega⟩

theorem toBits_eq_pack (x : Float) :
    x.toBits.toNat = (UnpackedFloat.pack .binary64 x.toModel.unpack).toNat := by
  have h := UnpackedFloat.pack_unpack_of_valid x.toModel.valid
  exact congrArg BitVec.toNat h.symm

/-- A double with a value is a zero, or a mantissa with an exponent. -/
theorem unpack_of_value {x : Float} {v : ℚ} (h : value? x = some v) :
    (∃ s, x.toModel.unpack = .zero s ∧ v = 0) ∨
    ∃ s m e, ∃ hm : 0 < m, x.toModel.unpack = .finite s m e hm ∧ v = withSign s (m * 2 ^ e) := by
  rw [value?, binary_eq_ofUnpacked] at h
  cases hx : x.toModel.unpack with
  | notANumber =>
    rw [hx] at h
    cases h
  | infinity s =>
    rw [hx] at h
    cases h
  | zero s =>
    rw [hx] at h
    refine .inl ⟨s, rfl, ?_⟩
    cases s <;> simpa [Binary.ofUnpacked] using h.symm
  | finite s m e hm =>
    rw [hx] at h
    refine .inr ⟨s, m, e, hm, rfl, ?_⟩
    cases s <;> exact (Option.some.inj h).symm

/-- A double is the one nearest to its value. -/
theorem nearest_of_value {x : Float} {v : ℚ} (h : value? x = some v) : Nearest x v := by
  have hbits := toBits_eq_pack x
  obtain ⟨s, hx, rfl⟩ | ⟨s, m, e, hm, hx, rfl⟩ := unpack_of_value h
  · rw [hx] at hbits
    exact nearest_zero hbits
  · obtain ⟨hcanonical, -⟩ := canonical_of_binary ((binary_eq_ofUnpacked x).trans (congrArg _ hx))
    rw [hx, toNat_pack hm hcanonical, ← nearRank_mul_zpow hcanonical] at hbits
    exact nearest_of_bits (by positivity) hbits

end RasterScript.Number
