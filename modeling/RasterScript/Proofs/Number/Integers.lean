import Mathlib
import RasterScript.Number.Arithmetic
import RasterScript.Proofs.Number.Unpacked

/-! Integers of at most 53 bits are doubles, and a double that is one of them is rounded to it. -/
namespace RasterScript.Number

open Float.Model (Format UnpackedFloat totalExponent)
open Float.Model.UnpackedFloat (ExtendedMantissa Sign Accuracy shiftToTargetExponent shiftToExponent
  roundWithAccuracy packComponents)

/-! ### Normal doubles -/

/-- A mantissa of 53 bits, and an exponent that a normal double can have with it. -/
structure Normal (m : Nat) (e : Int) : Prop where
  low : 2 ^ 52 ≤ m
  high : m < 2 ^ 53
  least : -1074 ≤ e
  greatest : e ≤ 971

namespace Normal

variable {m : Nat} {e : Int} (h : Normal m e)
include h

theorem pos : 0 < m := Nat.lt_of_lt_of_le (by decide) h.low

theorem log2_mul (k : Nat) : (m * 2 ^ k).log2 = 52 + k := by
  have hlow := Nat.mul_le_mul_right (2 ^ k) h.low
  have hhigh := Nat.mul_lt_mul_of_pos_right h.high (Nat.two_pow_pos k)
  rw [← Nat.pow_add] at hlow hhigh
  have hne : m * 2 ^ k ≠ 0 := Nat.mul_ne_zero (Nat.ne_of_gt h.pos) (Nat.ne_of_gt (Nat.two_pow_pos k))
  refine (Nat.log2_eq_iff hne).mpr ⟨hlow, ?_⟩
  rwa [Nat.add_right_comm]

theorem log2_eq : m.log2 = 52 := by simpa using h.log2_mul 0

/-- The exponent that a number has as a double does not depend on how it is written. -/
theorem targetExponent_eq (k : Nat) :
    Format.binary64.targetExponent (totalExponent (m * 2 ^ k) (e - k)) = e := by
  have hleast := h.least
  rw [totalExponent, h.log2_mul]
  simp only [Format.targetExponent, Format.mantissaBits, Format.minExponent]
  omega

omit h in
/-- Shifting zeros out loses nothing. -/
theorem shift_zeros (m k : Nat) :
    (⟨m * 2 ^ k, false, false⟩ : ExtendedMantissa) >>> k = ⟨m, false, false⟩ := by
  show k.repeat ExtendedMantissa.shiftRightOne _ = _
  induction k generalizing m with
  | zero => simp [Nat.repeat]
  | succ k ih =>
    rw [Nat.repeat, Nat.pow_succ', ← Nat.mul_assoc, ih]
    simp [ExtendedMantissa.shiftRightOne]

theorem shift_eq (k : Nat) :
    shiftToTargetExponent .binary64 (m * 2 ^ k) (e - k) .exact = (⟨m, false, false⟩, e) := by
  rw [shiftToTargetExponent, h.targetExponent_eq, shiftToExponent]
  have hk : (e - (e - (k : Int))).toNat = k := by omega
  simp only [hk, ExtendedMantissa.ofMantissaAndAccuracy, shift_zeros]
  congr 1
  omega

/-- A normal double is not rounded, with any number of zeros behind its mantissa. -/
theorem round_eq (s : Sign) (k : Nat) :
    roundWithAccuracy .binary64 s (m * 2 ^ k) (e - k) .exact = .finite s m e h.pos := by
  have hagain := h.shift_eq 0
  simp only [Nat.pow_zero, Nat.mul_one, Int.natCast_zero, Int.sub_zero] at hagain
  rw [roundWithAccuracy, h.shift_eq k]
  simp only [ExtendedMantissa.roundedMantissa, ExtendedMantissa.accuracy,
    Accuracy.roundToNearestEven, hagain, dif_neg (Nat.ne_of_gt h.pos)]

/-- The exponent field of a normal double. -/
def field (_ : Normal m e) : BitVec 11 := BitVec.ofNat 11 (e + 1075).toNat

theorem toNat_field : h.field.toNat = (e + 1075).toNat := by
  have hleast := h.least
  have hgreatest := h.greatest
  rw [field, BitVec.toNat_ofNat]
  omega

theorem pack_eq (s : Sign) :
    UnpackedFloat.pack .binary64 (.finite s m e h.pos) =
      packComponents .binary64 s h.field (BitVec.ofNat 52 m) := by
  have hleast := h.least
  have hgreatest := h.greatest
  have hbiased : (e + ((Format.binary64.exponentBias : Nat) : Int) + ((52 : Nat) : Int)).toNat =
      (e + 1075).toNat := by
    rw [show Format.binary64.exponentBias = 1023 by decide]
    omega
  rw [UnpackedFloat.pack]
  simp only [h.log2_eq, hbiased]
  rw [if_neg (by omega), if_pos (by decide)]
  rfl

/-- The fraction is the mantissa without its leading one. -/
theorem toNat_fraction : (BitVec.ofNat 52 m).toNat = m - 2 ^ 52 := by
  have hlow := h.low
  have hhigh := h.high
  rw [BitVec.toNat_ofNat]
  omega

theorem field_ne : h.field ≠ -1#11 ∧ h.field ≠ 0#11 := by
  have hleast := h.least
  have hgreatest := h.greatest
  have hfield := h.toNat_field
  constructor
  · intro hones
    have := congrArg BitVec.toNat hones
    rw [hfield, show (-1#11).toNat = 2047 by decide] at this
    omega
  · intro hzero
    have := congrArg BitVec.toNat hzero
    rw [hfield, show (0#11).toNat = 0 by decide] at this
    omega

/-- Unpacking undoes packing. -/
theorem unpack_pack (s : Sign) :
    UnpackedFloat.unpack .binary64 (UnpackedFloat.pack .binary64 (.finite s m e h.pos)) =
      .finite s m e h.pos := by
  have hlow := h.low
  have hleast := h.least
  obtain ⟨hones, hzero⟩ := h.field_ne
  have hmantissa : (1#1 ++ BitVec.ofNat 52 m).toNat = m := by
    rw [toNat_one_append, h.toNat_fraction]
    omega
  have hexponent : ((h.field.toNat : Int) - (Format.binary64.exponentBias + (52 : Nat))) = e := by
    rw [h.toNat_field, show Format.binary64.exponentBias = 1023 by decide]
    omega
  rw [h.pack_eq, UnpackedFloat.unpack]
  simp only [UnpackedFloat.unpackMantissa_packComponents,
    UnpackedFloat.unpackExponent_packComponents, UnpackedFloat.unpackSign_packComponents]
  rw [if_neg hones, if_neg hzero]
  simp only [hmantissa, hexponent, Sign.ofBitVec_toBitVec]

/-- What the bits of a normal double stand for. -/
theorem ofBits_pack (s : Sign) :
    Binary.ofBits (UnpackedFloat.pack .binary64 (.finite s m e h.pos)).toNat =
      .finite (s == .negative) m e := by
  rw [ofBits_toNat, h.unpack_pack]
  rfl

end Normal

/-! ### Integers -/

/-- A positive number of at most 53 bits, shifted up to 53. -/
theorem normal_of_lt {n : Nat} (hpos : 0 < n) (hn : n < 2 ^ 53) :
    Normal (n * 2 ^ (52 - n.log2)) (-(52 - n.log2 : Nat)) := by
  have hbits : n.log2 ≤ 52 := by
    have := (Nat.log2_lt (Nat.ne_of_gt hpos)).mpr hn
    omega
  obtain ⟨hlow, hhigh⟩ := (Nat.log2_eq_iff (Nat.ne_of_gt hpos)).mp (rfl : n.log2 = n.log2)
  have hlow := Nat.mul_le_mul_right (2 ^ (52 - n.log2)) hlow
  have hhigh := Nat.mul_lt_mul_of_pos_right hhigh (Nat.two_pow_pos (52 - n.log2))
  rw [← Nat.pow_add] at hlow hhigh
  rw [show n.log2 + (52 - n.log2) = 52 by omega] at hlow
  rw [show n.log2 + 1 + (52 - n.log2) = 53 by omega] at hhigh
  exact ⟨hlow, hhigh, by omega, by omega⟩

/-- A number with zeros behind its point is nearest to itself. -/
theorem nearestWhole_mul (n k : Nat) : Binary.nearestWhole (n * 2 ^ k) (-(k : Int)) = n := by
  have hpos := Nat.two_pow_pos k
  rw [Binary.nearestWhole, Int.neg_neg, Int.toNat_natCast]
  split
  · obtain rfl : k = 0 := by omega
    exact (Nat.mul_one _).trans (Nat.mul_one n)
  · show (2 * (n * 2 ^ k) + 2 ^ k) / (2 * 2 ^ k) = n
    rw [Nat.mul_comm n, ← Nat.mul_assoc, Nat.mul_add_div (by omega), Nat.div_eq_of_lt (by omega),
      Nat.add_zero]

section Small

variable {n : Nat} (hpos : 0 < n) (hn : n < 2 ^ 53)
include hpos hn

private theorem unpacked_ofNat :
    UnpackedFloat.ofNat .binary64 n =
      .finite .positive (n * 2 ^ (52 - n.log2)) (-(52 - n.log2 : Nat)) (normal_of_lt hpos hn).pos := by
  have hnormal := normal_of_lt hpos hn
  have hbits : n.log2 ≤ 52 := by
    have := (Nat.log2_lt (Nat.ne_of_gt hpos)).mpr hn
    omega
  have htarget : Format.binary64.targetExponent (totalExponent n 0) = -(52 - n.log2 : Nat) := by
    simp only [totalExponent, Format.targetExponent, Format.mantissaBits, Format.minExponent]
    omega
  have hround := hnormal.round_eq .positive 0
  simp only [Nat.pow_zero, Nat.mul_one, Int.natCast_zero, Int.sub_zero] at hround
  have hcompare : compare (n : Int) 0 = .gt := by
    rw [Int.compare_eq_gt]
    omega
  rw [UnpackedFloat.ofNat, UnpackedFloat.ofInt, UnpackedFloat.normalize, hcompare]
  simp only [UnpackedFloat.round, UnpackedFloat.decreaseExponent, htarget, Int.zero_sub,
    Int.neg_neg, Int.toNat_natCast, Nat.shiftLeft_eq, hround]

/-- The double of a positive number of at most 53 bits is that number. -/
theorem toModel_ofNat :
    (Float.ofNat n).toModel = Float.Model.pack (.finite .positive (n * 2 ^ (52 - n.log2))
      (-(52 - n.log2 : Nat)) (normal_of_lt hpos hn).pos) := by
  have hnormal := normal_of_lt hpos hn
  -- A literal is its digits times a power of ten, which is one here.
  have hone : Float.ofNat n = n.toUInt64.toFloat * Float.ofBits 0x3FF0000000000000 := by
    unfold Float.ofNat
    show Float.ofScientific n false 0 = _
    unfold Float.ofScientific
    rw [dif_pos ⟨hn, by decide⟩]
    rfl
  have hword : n.toUInt64.toNat = n := by
    rw [Nat.toUInt64, UInt64.toNat_ofNat']
    omega
  have hfirst : n.toUInt64.toFloat.toModel.unpack = .finite .positive (n * 2 ^ (52 - n.log2))
      (-(52 - n.log2 : Nat)) hnormal.pos := by
    show UnpackedFloat.unpack .binary64 (UnpackedFloat.pack .binary64
      (UnpackedFloat.ofNat .binary64 n.toUInt64.toNat)) = _
    rw [hword, unpacked_ofNat hpos hn]
    exact hnormal.unpack_pack .positive
  have hsecond : (Float.ofBits 0x3FF0000000000000).toModel.unpack =
      .finite .positive (2 ^ 52) (-52) (by decide) := by
    have hbits : Float.ofBits 0x3FF0000000000000 =
        .ofModel (Float.Model.pack (.finite .positive (2 ^ 52) (-52) (by decide))) := by
      decide +kernel
    rw [hbits]
    exact Normal.unpack_pack ⟨by decide, by decide, by decide, by decide⟩ .positive
  rw [hone]
  show Float.Model.pack (UnpackedFloat.mul .binary64 _ _) = _
  rw [hfirst, hsecond]
  exact congrArg Float.Model.pack (hnormal.round_eq .positive 52)

theorem binary_ofNat :
    Binary.ofFloat (Float.ofNat n) =
      .finite false (n * 2 ^ (52 - n.log2)) (-(52 - n.log2 : Nat)) := by
  show Binary.ofBits (Float.ofNat n).toModel.toBits.toNat = _
  rw [toModel_ofNat hpos hn]
  exact (normal_of_lt hpos hn).ofBits_pack .positive

theorem binary_neg_ofNat :
    Binary.ofFloat (-Float.ofNat n) =
      .finite true (n * 2 ^ (52 - n.log2)) (-(52 - n.log2 : Nat)) := by
  show Binary.ofBits (UnpackedFloat.pack .binary64 (Float.ofNat n).toModel.unpack.neg).toNat = _
  rw [toModel_ofNat hpos hn]
  show Binary.ofBits (UnpackedFloat.pack .binary64 (UnpackedFloat.unpack .binary64
    (UnpackedFloat.pack .binary64 _)).neg).toNat = _
  rw [(normal_of_lt hpos hn).unpack_pack .positive]
  exact (normal_of_lt hpos hn).ofBits_pack .negative

end Small

/-- An integer of at most 53 bits is the integer nearest to its double. -/
theorem nearestInt?_ofInt {n : Int} (h : n.natAbs ≤ 2 ^ 53) :
    nearestInt? (Float.ofInt n) = some n := by
  obtain hn | hn : n.natAbs = 2 ^ 53 ∨ n.natAbs < 2 ^ 53 := by omega
  · obtain rfl | rfl : n = 2 ^ 53 ∨ n = -2 ^ 53 := by omega
    · decide +kernel
    · decide +kernel
  · cases n with
    | ofNat n =>
      obtain rfl | hpos := Nat.eq_zero_or_pos n
      · decide +kernel
      · rw [nearestInt?, show Float.ofInt (.ofNat n) = Float.ofNat n from rfl, binary_ofNat hpos hn]
        simp only [nearestWhole_mul]
        rfl
    | negSucc n =>
      rw [nearestInt?, show Float.ofInt (.negSucc n) = -Float.ofNat (n + 1) from rfl,
        binary_neg_ofNat (Nat.succ_pos n) hn]
      simp only [nearestWhole_mul]
      rfl

end RasterScript.Number
