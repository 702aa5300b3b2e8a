import Mathlib
import RasterScript.Number.Binary

/-! The bits of a double stand for what its unpacked form says, so facts about comparisons and
kinds of doubles carry over to exact binary fractions. -/
namespace RasterScript.Number

open Float.Model (Format UnpackedFloat)
open Float.Model.UnpackedFloat (Sign packComponents unpack)

/-- An unpacked double as a binary fraction. -/
def Binary.ofUnpacked : UnpackedFloat → Binary
  | .notANumber => .nan
  | .infinity s => .infinite (s == .negative)
  | .zero s => .finite (s == .negative) 0 (-1074)
  | .finite s m e _ => .finite (s == .negative) m e

theorem toNat_one_append (fraction : BitVec 52) :
    (1#1 ++ fraction).toNat = 2 ^ 52 + fraction.toNat := by
  rw [BitVec.toNat_append, ← Nat.shiftLeft_add_eq_or_of_lt fraction.isLt]
  rfl

theorem toNat_packComponents (s : Sign) (e : BitVec 11) (m : BitVec 52) :
    (packComponents .binary64 s e m).toNat =
      (s.toBitVec.toNat * 2 ^ 11 + e.toNat) * 2 ^ 52 + m.toNat := by
  show (s.toBitVec ++ e ++ m).toNat = _
  rw [BitVec.toNat_append, BitVec.toNat_append, ← Nat.shiftLeft_add_eq_or_of_lt m.isLt,
    ← Nat.shiftLeft_add_eq_or_of_lt e.isLt, Nat.shiftLeft_eq, Nat.shiftLeft_eq]

/-- The bits of a double by its three fields. -/
theorem ofBits_packComponents (s : Sign) (e : BitVec 11) (m : BitVec 52) :
    Binary.ofBits (packComponents .binary64 s e m).toNat =
      if e.toNat = 2047 then
        if m.toNat = 0 then .infinite (s == .negative) else .nan
      else if e.toNat = 0 then .finite (s == .negative) m.toNat (-1074)
      else .finite (s == .negative) (2 ^ 52 + m.toNat) ((e.toNat : Int) - 1075) := by
  have hbits := toNat_packComponents s e m
  generalize packComponents .binary64 s e m = bits at hbits
  have he := e.isLt
  have hm := m.isLt
  have hsign : s.toBitVec.toNat = (s == .negative).toNat := by cases s <;> rfl
  have hle := Bool.toNat_le (s == .negative)
  have hexponent : bits.toNat / twoTo 52 % twoTo 11 = e.toNat := by
    rw [hbits, show twoTo 52 = 2 ^ 52 from rfl, show twoTo 11 = 2 ^ 11 from rfl]
    omega
  have hfraction : bits.toNat % twoTo 52 = m.toNat := by
    rw [hbits, show twoTo 52 = 2 ^ 52 from rfl]
    omega
  have hnegative : (bits.toNat / twoTo 63 % 2 == 1) = (s == .negative) := by
    have hbit : bits.toNat / twoTo 63 % 2 = (s == .negative).toNat := by
      rw [hbits, show twoTo 63 = 2 ^ 63 from rfl, hsign]
      omega
    rw [hbit]
    cases s == .negative <;> rfl
  simp only [Binary.ofBits, hexponent, hfraction, hnegative, beq_iff_eq]
  rfl

theorem ofBits_toNat (bits : BitVec 64) :
    Binary.ofBits bits.toNat = .ofUnpacked (unpack .binary64 bits) := by
  obtain ⟨s, e, m, rfl⟩ : ∃ s e m, bits = packComponents .binary64 s e m :=
    ⟨_, _, _, (@UnpackedFloat.packComponents_unpackSign_unpackExponent_unpackMantissa
      .binary64 bits).symm⟩
  have hones : e = -1#11 ↔ e.toNat = 2047 := by
    rw [BitVec.toNat_inj.symm]
    rfl
  have hzeros : e = 0#11 ↔ e.toNat = 0 := by
    rw [BitVec.toNat_inj.symm]
    rfl
  have hnone : m = 0#52 ↔ m.toNat = 0 := by
    rw [BitVec.toNat_inj.symm]
    rfl
  rw [ofBits_packComponents, unpack]
  simp only [UnpackedFloat.unpackMantissa_packComponents,
    UnpackedFloat.unpackExponent_packComponents, UnpackedFloat.unpackSign_packComponents,
    Sign.ofBitVec_toBitVec]
  have hbias : ((Format.binary64.exponentBias : Nat) : Int) +
      (Format.binary64.mantissaBitsWithoutImplicit : Nat) = 1075 := rfl
  by_cases he : e.toNat = 2047
  · rw [if_pos he, if_pos (hones.mpr he)]
    by_cases hm : m.toNat = 0
    · rw [if_pos hm, if_pos (hnone.mpr hm)]
      rfl
    · rw [if_neg hm, if_neg fun h => hm (hnone.mp h)]
      rfl
  · rw [if_neg he, if_neg fun h => he (hones.mp h), hbias]
    by_cases hzero : e.toNat = 0
    · rw [if_pos hzero, if_pos (hzeros.mpr hzero), hzero]
      by_cases hm : m.toNat = 0
      · rw [dif_pos (hnone.mpr hm), hm]
        rfl
      · rw [dif_neg fun h => hm (hnone.mp h)]
        rfl
    · rw [if_neg hzero, if_neg fun h => hzero (hzeros.mp h)]
      simp only [Binary.ofUnpacked, toNat_one_append]

theorem binary_eq_ofUnpacked (x : Float) : Binary.ofFloat x = .ofUnpacked x.toModel.unpack :=
  ofBits_toNat x.toModel.toBits.toBitVec

/-! ### Kinds of doubles -/

theorem binary_of_isNaN {x : Float} (h : x.isNaN) : Binary.ofFloat x = .nan := by
  have hmodel : x.toModel.unpack.isNaN = true := h
  rw [binary_eq_ofUnpacked]
  cases hx : x.toModel.unpack with
  | notANumber => rfl
  | _ => rw [hx] at hmodel; cases hmodel

theorem binary_of_isInf {x : Float} (h : x.isInf) : ∃ negative, Binary.ofFloat x = .infinite negative := by
  have hmodel : x.toModel.unpack.isInf = true := h
  rw [binary_eq_ofUnpacked]
  cases hx : x.toModel.unpack with
  | infinity s => exact ⟨_, rfl⟩
  | _ => rw [hx] at hmodel; cases hmodel

/-- A double below zero is an infinity, or a fraction with a sign that is not zero. -/
theorem binary_of_neg {x : Float} (h : x < 0) :
    Binary.ofFloat x = .infinite true ∨ ∃ m q, 0 < m ∧ Binary.ofFloat x = .finite true m q := by
  have hmodel : UnpackedFloat.compare x.toModel.unpack (.zero .positive) = some .lt := by
    have hzero : (0 : Float) = .ofModel (Float.Model.pack (.zero .positive)) := by decide +kernel
    have hlt : x.toModel.lt (0 : Float).toModel = true := of_decide_eq_true h
    rw [hzero] at hlt
    exact beq_iff_eq.mp hlt
  rw [binary_eq_ofUnpacked]
  cases hx : x.toModel.unpack with
  | notANumber => rw [hx] at hmodel; cases hmodel
  | infinity s =>
    cases s with
    | negative => exact .inl rfl
    | positive => rw [hx] at hmodel; cases hmodel
  | zero s => rw [hx] at hmodel; cases hmodel
  | finite s m e hm =>
    cases s with
    | negative => exact .inr ⟨m, e, hm, rfl⟩
    | positive => rw [hx] at hmodel; cases hmodel

end RasterScript.Number
