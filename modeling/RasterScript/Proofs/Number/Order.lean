import Mathlib
import RasterScript.Proofs.Number.Operations

/-! The order of doubles is the order of their ranks, so rounding keeps it: doubles nearest to
larger numbers are not smaller, and neither are the integers that doubles round to. -/
namespace RasterScript.Number

open Float.Model (UnpackedFloat)
open Float.Model.UnpackedFloat (Sign)

/-! ### Comparison by rank -/

theorem rankAt_eq {m : ℕ} {e : ℤ} (h : Canonical m e) (he : e ≤ 971) :
    rankAt m e = m + (e + 1074).toNat * 2 ^ 52 ∧ rankAt m e < infinityRank := by
  obtain ⟨hlt, hleast, -⟩ := h
  rw [rankAt, infinityRank]
  omega

/-- Ranks order doubles as exponents do, and mantissas where the exponents are the same. -/
theorem compare_rankAt {m m' : ℕ} {e e' : ℤ} (h : Canonical m e) (he : e ≤ 971)
    (h' : Canonical m' e') (he' : e' ≤ 971) :
    (compare e e').then (compare m m') = compare (rankAt m e : ℤ) (rankAt m' e') := by
  rw [(rankAt_eq h he).1, (rankAt_eq h' he').1]
  obtain ⟨hlt, hleast, hnormal⟩ := h
  obtain ⟨hlt', hleast', hnormal'⟩ := h'
  obtain hless | rfl | hmore := lt_trichotomy e e'
  · rw [compare_lt_iff_lt.mpr hless, Ordering.lt_then, eq_comm, compare_lt_iff_lt]
    omega
  · rw [compare_eq_iff_eq.mpr rfl, Ordering.eq_then]
    obtain hm | rfl | hm := lt_trichotomy m m'
    · rw [compare_lt_iff_lt.mpr hm, eq_comm, compare_lt_iff_lt]
      omega
    · rw [compare_eq_iff_eq.mpr rfl, eq_comm, compare_eq_iff_eq]
    · rw [compare_gt_iff_gt.mpr hm, eq_comm, compare_gt_iff_gt]
      omega
  · rw [compare_gt_iff_gt.mpr hmore, Ordering.gt_then, eq_comm, compare_gt_iff_gt]
    omega

/-- The rank of an unpacked double. -/
def unpackedRank : UnpackedFloat → ℤ
  | .notANumber => 0
  | .infinity s => s.apply infinityRank
  | .zero _ => 0
  | .finite s m e _ => s.apply (rankAt m e)

/-- An unpacked double that is a number, in the form that unpacking gives. -/
def Unpacked : UnpackedFloat → Prop
  | .notANumber => False
  | .infinity _ => True
  | .zero _ => True
  | .finite _ m e _ => Canonical m e ∧ e ≤ 971

private theorem unpacked_of_number {x : Float} (h : x.isNaN = false) :
    Unpacked x.toModel.unpack ∧ rank x = unpackedRank x.toModel.unpack := by
  have hbits := toBits_eq_pack x
  cases hx : x.toModel.unpack with
  | notANumber =>
    have hnan : x.toModel.unpack.isNaN = false := h
    rw [hx] at hnan
    cases hnan
  | infinity s =>
    rw [hx, toNat_pack_infinity] at hbits
    exact ⟨trivial, (number_of_bits le_rfl hbits).2⟩
  | zero s =>
    rw [hx, toNat_pack_zero, ← Nat.add_zero (_ * _)] at hbits
    refine ⟨trivial, (number_of_bits (Nat.zero_le _) hbits).2.trans ?_⟩
    cases s <;> rfl
  | finite s m e hm =>
    obtain ⟨hcanonical, he⟩ := canonical_of_binary ((binary_eq_ofUnpacked x).trans (congrArg _ hx))
    rw [hx, toNat_pack hm hcanonical] at hbits
    exact ⟨⟨hcanonical, he⟩, (number_of_bits (min_le_right ..) hbits).2⟩

private theorem rankAt_pos {m : ℕ} (hm : 0 < m) (e : ℤ) : 0 < rankAt m e := by
  rw [rankAt, infinityRank]
  omega

private theorem compare_neg_neg (a b : ℤ) : compare (-a) (-b) = (compare a b).swap := by
  obtain h | rfl | h := lt_trichotomy a b
  · rw [compare_lt_iff_lt.mpr h, Ordering.swap, compare_gt_iff_gt]
    omega
  · rw [compare_eq_iff_eq.mpr rfl, compare_eq_iff_eq.mpr rfl, Ordering.swap]
  · rw [compare_gt_iff_gt.mpr h, Ordering.swap, compare_lt_iff_lt]
    omega

private theorem some_lt {a b : ℤ} (h : a < b) : some Ordering.lt = some (compare a b) :=
  congrArg some (compare_lt_iff_lt.mpr h).symm

private theorem some_gt {a b : ℤ} (h : b < a) : some Ordering.gt = some (compare a b) :=
  congrArg some (compare_gt_iff_gt.mpr h).symm

section Finite

variable {m : ℕ} {e : ℤ} (hm : 0 < m)

private theorem unpackedRank_bounds {s : Sign} (h : Unpacked (.finite s m e hm)) :
    -(infinityRank : ℤ) < unpackedRank (.finite s m e hm) ∧
      unpackedRank (.finite s m e hm) < infinityRank := by
  have := (rankAt_eq h.1 h.2).2
  have := rankAt_pos hm e
  cases s <;> simp only [unpackedRank, Sign.apply] <;> omega

private theorem unpackedRank_negative : unpackedRank (.finite .negative m e hm) < 0 := by
  have := rankAt_pos hm e
  simp only [unpackedRank, Sign.apply]
  omega

private theorem unpackedRank_positive : 0 < unpackedRank (.finite .positive m e hm) := by
  have := rankAt_pos hm e
  simp only [unpackedRank, Sign.apply]
  omega

end Finite

section Compare

variable {u w : UnpackedFloat}

private theorem compare_infinity (s : Sign) (hw : Unpacked w) :
    UnpackedFloat.compare (.infinity s) w =
      some (compare (unpackedRank (.infinity s)) (unpackedRank w)) := by
  cases w with
  | notANumber => exact hw.elim
  | infinity s' => cases s <;> cases s' <;> decide
  | zero s' => cases s <;> rfl
  | finite s' m e hm =>
    obtain ⟨hlow, hhigh⟩ := unpackedRank_bounds hm hw
    cases s with
    | negative => exact some_lt hlow
    | positive => exact some_gt hhigh

private theorem compare_zero (s : Sign) (hw : Unpacked w) :
    UnpackedFloat.compare (.zero s) w = some (compare (unpackedRank (.zero s)) (unpackedRank w)) := by
  cases w with
  | notANumber => exact hw.elim
  | infinity s' => cases s' <;> rfl
  | zero s' => rfl
  | finite s' m e hm =>
    cases s' with
    | negative => exact some_gt (unpackedRank_negative hm)
    | positive => exact some_lt (unpackedRank_positive hm)

private theorem compare_finite {s : Sign} {m : ℕ} {e : ℤ} (hm : 0 < m)
    (hu : Unpacked (.finite s m e hm)) (hw : Unpacked w) :
    UnpackedFloat.compare (.finite s m e hm) w =
      some (compare (unpackedRank (.finite s m e hm)) (unpackedRank w)) := by
  cases w with
  | notANumber => exact hw.elim
  | infinity s' =>
    obtain ⟨hlow, hhigh⟩ := unpackedRank_bounds hm hu
    cases s' with
    | negative => cases s <;> exact some_gt hlow
    | positive => cases s <;> exact some_lt hhigh
  | zero s' =>
    cases s with
    | negative => exact some_lt (unpackedRank_negative hm)
    | positive => exact some_gt (unpackedRank_positive hm)
  | finite s' m' e' hm' =>
    have hsame := compare_rankAt hu.1 hu.2 hw.1 hw.2
    cases s <;> cases s'
    · refine congrArg some ?_
      rw [hsame, ← compare_neg_neg]
      rfl
    · exact some_lt ((unpackedRank_negative hm).trans (unpackedRank_positive hm'))
    · exact some_gt ((unpackedRank_negative hm').trans (unpackedRank_positive hm))
    · exact congrArg some hsame

private theorem compare_unpacked (hu : Unpacked u) (hw : Unpacked w) :
    u.compare w = some (compare (unpackedRank u) (unpackedRank w)) := by
  cases u with
  | notANumber => exact hu.elim
  | infinity s => exact compare_infinity s hw
  | zero s => exact compare_zero s hw
  | finite s m e hm => exact compare_finite hm hu hw

end Compare

section Order

variable {x y z : Float} {a b : ℚ}

private theorem compare_of_number (hx : x.isNaN = false) (hy : y.isNaN = false) :
    x.toModel.unpack.compare y.toModel.unpack = some (compare (rank x) (rank y)) := by
  obtain ⟨hux, hrx⟩ := unpacked_of_number hx
  obtain ⟨huy, hry⟩ := unpacked_of_number hy
  rw [compare_unpacked hux huy, hrx, hry]

/-- What is not a number is not ordered. -/
theorem compare_of_nan (h : x.isNaN = true ∨ y.isNaN = true) :
    x.toModel.unpack.compare y.toModel.unpack = none := by
  obtain h | h := h
  · rw [UnpackedFloat.isNaN_iff.mp (show x.toModel.unpack.isNaN = true from h)]
    rfl
  · rw [UnpackedFloat.isNaN_iff.mp (show y.toModel.unpack.isNaN = true from h)]
    cases x.toModel.unpack <;> rfl

theorem le_iff : x ≤ y ↔ x.isNaN = false ∧ y.isNaN = false ∧ rank x ≤ rank y := by
  have hmodel : x ≤ y ↔ x.toModel.le y.toModel = true := decide_eq_true_iff
  rw [hmodel]
  show (x.toModel.unpack.compare y.toModel.unpack).any Ordering.isLE = true ↔ _
  cases hx : x.isNaN with
  | true => simp [compare_of_nan (.inl hx)]
  | false =>
    cases hy : y.isNaN with
    | true => simp [compare_of_nan (.inr hy)]
    | false =>
      rw [compare_of_number hx hy, Option.any_some, ← compare_le_iff_le, Ordering.isLE_iff_ne_gt]
      simp

theorem lt_iff : x < y ↔ x.isNaN = false ∧ y.isNaN = false ∧ rank x < rank y := by
  have hmodel : x < y ↔ x.toModel.lt y.toModel = true := decide_eq_true_iff
  rw [hmodel]
  show (x.toModel.unpack.compare y.toModel.unpack == some .lt) = true ↔ _
  rw [beq_iff_eq]
  cases hx : x.isNaN with
  | true => simp [compare_of_nan (.inl hx)]
  | false =>
    cases hy : y.isNaN with
    | true => simp [compare_of_nan (.inr hy)]
    | false =>
      rw [compare_of_number hx hy, Option.some_inj, compare_lt_iff_lt]
      simp

private theorem beq_iff :
    (x == y) = true ↔ x.isNaN = false ∧ y.isNaN = false ∧ rank x = rank y := by
  show (x.toModel.unpack.compare y.toModel.unpack == some .eq) = true ↔ _
  rw [beq_iff_eq]
  cases hx : x.isNaN with
  | true => simp [compare_of_nan (.inl hx)]
  | false =>
    cases hy : y.isNaN with
    | true => simp [compare_of_nan (.inr hy)]
    | false =>
      rw [compare_of_number hx hy, Option.some_inj, compare_eq_iff_eq]
      simp

theorem le_trans (hxy : x ≤ y) (hyz : y ≤ z) : x ≤ z := by
  obtain ⟨hx, -, hleft⟩ := le_iff.mp hxy
  obtain ⟨-, hz, hright⟩ := le_iff.mp hyz
  exact le_iff.mpr ⟨hx, hz, hleft.trans hright⟩

theorem Nearest.le (hx : Nearest x a) (hy : Nearest y b) (h : a ≤ b) : x ≤ y := by
  rw [le_iff, hx.rank_eq, hy.rank_eq]
  exact ⟨hx.number, hy.number, nearestRank_mono h⟩

/-! ### Values by rank -/

/-- Only the zeros have one rank for two doubles. -/
theorem bits_of_rank_eq (h : rank x = rank y) :
    x.toBits.toNat = y.toBits.toNat ∨ (x.toBits.toNat = 0 ∧ y.toBits.toNat = 2 ^ 63) ∨
      (x.toBits.toNat = 2 ^ 63 ∧ y.toBits.toNat = 0) := by
  rw [rank, rank] at h
  split_ifs at h <;> omega

theorem eq_of_rank_eq (h : rank x = rank y) (hne : rank x ≠ 0) : x = y := by
  obtain hsame | ⟨hx, -⟩ | ⟨hx, -⟩ := bits_of_rank_eq h
  · exact Float.toBits_inj.mp (UInt64.toNat_inj.mp hsame)
  · refine absurd ?_ hne
    rw [rank, hx]
    rfl
  · refine absurd ?_ hne
    rw [rank, hx]
    rfl

/-- The rank tells the value. -/
theorem value?_eq_of_rank_eq (h : rank x = rank y) : value? x = value? y := by
  have hplus : Binary.ofBits 0 = .finite false 0 (-1074) := by decide
  have hminus : Binary.ofBits (2 ^ 63) = .finite true 0 (-1074) := by decide
  rw [value?, value?, Binary.ofFloat, Binary.ofFloat]
  obtain hsame | ⟨hx, hy⟩ | ⟨hx, hy⟩ := bits_of_rank_eq h
  · rw [hsame]
  · rw [hx, hy, hplus, hminus]
    simp
  · rw [hx, hy, hplus, hminus]
    simp

theorem number_of_value (h : value? x = some a) : x.isNaN = false := (nearest_of_value h).number

/-- The numbers with a value are those strictly between the infinities. -/
theorem isSome_value?_iff (h : x.isNaN = false) :
    (value? x).isSome = true ↔ -(infinityRank : ℤ) < rank x ∧ rank x < infinityRank := by
  obtain ⟨hunpacked, hrank⟩ := unpacked_of_number h
  have hinfinity : 0 < infinityRank := by decide
  rw [hrank, value?, binary_eq_ofUnpacked]
  cases hx : x.toModel.unpack with
  | notANumber =>
    rw [hx] at hunpacked
    exact hunpacked.elim
  | infinity s => cases s <;> simp [Binary.ofUnpacked, unpackedRank, Sign.apply]
  | zero s => simp [Binary.ofUnpacked, unpackedRank, hinfinity]
  | finite s m e hm =>
    rw [hx] at hunpacked
    have := (rankAt_eq hunpacked.1 hunpacked.2).2
    cases s <;>
      simp only [Binary.ofUnpacked, unpackedRank, Sign.apply, Option.isSome_some, true_iff] <;>
      omega

private theorem rank_bounds (h : x.isNaN = false) :
    -(infinityRank : ℤ) ≤ rank x ∧ rank x ≤ infinityRank := by
  obtain ⟨s, r, hr, hbits, -⟩ := bits_neg h
  rw [(number_of_bits hr hbits).2]
  cases s <;> simp only [Sign.apply] <;> omega

/-- The double nearest to the value of a double has that value. -/
theorem Nearest.value_eq (hx : Nearest x a) (hy : value? y = some a) : value? x = some a := by
  rw [← hy]
  exact value?_eq_of_rank_eq (hx.rank_eq.trans (nearest_of_value hy).rank_eq.symm)

theorem value_le_iff (hx : value? x = some a) (hy : value? y = some b) : x ≤ y ↔ a ≤ b := by
  refine ⟨fun h => ?_, (nearest_of_value hx).le (nearest_of_value hy)⟩
  by_contra hlt
  have hrank := (le_iff.mp ((nearest_of_value hy).le (nearest_of_value hx) (not_le.mp hlt).le)).2.2
  have hsame := value?_eq_of_rank_eq (le_antisymm (le_iff.mp h).2.2 hrank)
  rw [hx, hy, Option.some_inj] at hsame
  exact hlt hsame.le

theorem value_beq_iff (hx : value? x = some a) (hy : value? y = some b) :
    (x == y) = true ↔ a = b := by
  rw [beq_iff]
  constructor
  · rintro ⟨-, -, hrank⟩
    have hsame := value?_eq_of_rank_eq hrank
    rwa [hx, hy, Option.some_inj] at hsame
  · rintro rfl
    have hleft := nearest_of_value hx
    have hright := nearest_of_value hy
    exact ⟨hleft.number, hright.number, hleft.rank_eq.trans hright.rank_eq.symm⟩

theorem isSome_value?_between (hxy : x ≤ y) (hyz : y ≤ z) (hx : (value? x).isSome)
    (hz : (value? z).isSome) : (value? y).isSome := by
  obtain ⟨hnx, hny, hleft⟩ := le_iff.mp hxy
  obtain ⟨-, hnz, hright⟩ := le_iff.mp hyz
  have hlow := ((isSome_value?_iff hnx).mp hx).1
  have hhigh := ((isSome_value?_iff hnz).mp hz).2
  exact (isSome_value?_iff hny).mpr ⟨by omega, by omega⟩

theorem isFinite_iff : x.isFinite = true ↔ (value? x).isSome = true := by
  show x.toModel.unpack.isFinite = true ↔ _
  rw [value?, binary_eq_ofUnpacked]
  cases x.toModel.unpack <;> simp [Binary.ofUnpacked, UnpackedFloat.isFinite]

theorem isFinite_iff_binary :
    x.isFinite = true ↔ ∃ negative m q, Binary.ofFloat x = .finite negative m q := by
  rw [isFinite_iff, value?]
  cases Binary.ofFloat x <;> simp

theorem isFinite_iff_not : x.isFinite = true ↔ x.isNaN = false ∧ x.isInf = false := by
  show x.toModel.unpack.isFinite = true ↔
    x.toModel.unpack.isNaN = false ∧ x.toModel.unpack.isInf = false
  cases x.toModel.unpack <;>
    simp [UnpackedFloat.isFinite, UnpackedFloat.isNaN, UnpackedFloat.isInf]

theorem number_of_isFinite (h : x.isFinite = true) : x.isNaN = false := by
  obtain ⟨v, hv⟩ := Option.isSome_iff_exists.mp (isFinite_iff.mp h)
  exact number_of_value hv

theorem eq_zero_of_binary {x : Float} {negative : Bool} {q : ℤ}
    (h : Binary.ofFloat x = .finite negative 0 q) : x = 0 ∨ x = -0 := by
  have hvalue : value? x = some 0 := by
    rw [value?, h]
    simp
  have hrank : rank x = rank 0 := by
    rw [(nearest_of_value hvalue).rank_eq, nearestRank, if_neg (lt_irrefl 0), nearRank_zero]
    decide +kernel
  have hplus : Float.toBits 0 = 0 := by decide +kernel
  have hminus : Float.toBits (-0) = UInt64.ofNat (2 ^ 63) := by decide +kernel
  obtain hsame | ⟨-, hzero⟩ | ⟨hx, -⟩ := bits_of_rank_eq hrank
  · exact .inl (Float.toBits_inj.mp (UInt64.toNat_inj.mp hsame))
  · rw [hplus] at hzero
    exact absurd hzero (by decide)
  · refine .inr (Float.toBits_inj.mp (UInt64.toNat_inj.mp ?_))
    rw [hx, hminus]
    decide

/-- A double is the nearest one to a number of its rank, up to its sign. -/
theorem eq_of_nearest {x y : Float} {negative : Bool} {m : ℕ} {q : ℤ} {v : ℚ}
    (hx : Binary.ofFloat x = .finite negative m q) (hm : 0 < m) (hv : 0 ≤ v)
    (hrank : nearRank v = rankAt m q) (hy : Nearest y v) : (if negative then -y else y) = x := by
  obtain ⟨hcanonical, -⟩ := canonical_of_binary hx
  have hpos := rankAt_pos hm q
  have hvalue : value? x = some (if negative then -((m : ℚ) * 2 ^ q) else m * 2 ^ q) := by
    rw [value?, hx]
  have hrankx := (nearest_of_value hvalue).rank_eq
  have hranky := hy.rank_eq
  have hdouble : nearestRank (m * 2 ^ q) = rankAt m q := by
    rw [nearestRank, if_neg (not_lt.mpr (by positivity)), nearRank_mul_zpow hcanonical]
  rw [nearestRank, if_neg (not_lt.mpr hv), hrank] at hranky
  cases negative with
  | true =>
    have hneg := (nearest_neg hy).rank_eq
    rw [nearestRank_neg, ← hy.rank_eq, hranky] at hneg
    rw [if_pos rfl, nearestRank_neg, hdouble] at hrankx
    show -y = x
    exact eq_of_rank_eq (hneg.trans hrankx.symm) (by omega)
  | false =>
    rw [if_neg Bool.false_ne_true, hdouble] at hrankx
    show y = x
    exact eq_of_rank_eq (hranky.trans hrankx.symm) (by omega)

theorem isFinite_neg (h : x.isFinite = true) : (-x).isFinite = true := by
  have hnumber := number_of_isFinite h
  obtain ⟨v, hv⟩ := Option.isSome_iff_exists.mp (isFinite_iff.mp h)
  have hneg := nearest_neg (nearest_of_value hv)
  have hbounds := (isSome_value?_iff hnumber).mp (isFinite_iff.mp h)
  rw [isFinite_iff, isSome_value?_iff hneg.number, hneg.rank_eq, nearestRank_neg,
    ← (nearest_of_value hv).rank_eq]
  omega

/-- A quotient by a number that is at least one is no larger. -/
theorem isFinite_div (hx : x.isFinite = true) (hy : value? y = some b) (hb : 1 ≤ b) :
    (x / y).isFinite = true := by
  obtain ⟨a, ha⟩ := Option.isSome_iff_exists.mp (isFinite_iff.mp hx)
  have hzero : value? 0 = some 0 := by decide +kernel
  have hdiv := nearest_div ha hy (by linarith)
  rw [isFinite_iff]
  obtain hpos | hneg := le_total 0 a
  · refine isSome_value?_between ((nearest_of_value hzero).le hdiv ?_)
      (hdiv.le (nearest_of_value ha) (div_le_self hpos hb)) (by rw [hzero]; rfl) (by rw [ha]; rfl)
    positivity
  · refine isSome_value?_between ((nearest_of_value ha).le hdiv ?_)
      (hdiv.le (nearest_of_value hzero) ?_) (by rw [ha]; rfl) (by rw [hzero]; rfl)
    · rw [le_div_iff₀ (by linarith)]
      nlinarith
    · exact div_nonpos_of_nonpos_of_nonneg hneg (by linarith)

/-! ### Nearest integers -/

/-- The nearest integer, a half away from zero. -/
def nearestAway (v : ℚ) : ℤ := if v < 0 then -⌊-v + 1 / 2⌋ else ⌊v + 1 / 2⌋

theorem nearestAway_intCast (n : ℤ) : nearestAway n = n := by
  have hhalf (k : ℤ) : ⌊(k : ℚ) + 1 / 2⌋ = k := by
    rw [Int.floor_eq_iff]
    constructor <;> linarith
  rw [nearestAway]
  split
  · rw [← Int.cast_neg, hhalf, neg_neg]
  · exact hhalf n

theorem nearestAway_mono (h : a ≤ b) : nearestAway a ≤ nearestAway b := by
  rw [nearestAway, nearestAway]
  split
  · next ha =>
    split
    · exact neg_le_neg (Int.floor_mono (by linarith))
    · next hb =>
      have hleft : 0 ≤ ⌊-a + 1 / 2⌋ := Int.floor_nonneg.mpr (by linarith)
      have hright : 0 ≤ ⌊b + 1 / 2⌋ := Int.floor_nonneg.mpr (by linarith)
      omega
  · rw [if_neg (by linarith)]
    exact Int.floor_mono (by linarith)

private theorem nearestWhole_eq (m : ℕ) (q : ℤ) :
    (Binary.nearestWhole m q : ℤ) = ⌊(m : ℚ) * 2 ^ q + 1 / 2⌋ := by
  rw [Binary.nearestWhole]
  cases q with
  | ofNat k =>
    rw [Int.ofNat_eq_natCast, if_pos (Int.natCast_nonneg k), Int.toNat_natCast, zpow_natCast]
    have hwhole := nearestAway_intCast (m * 2 ^ k : ℕ)
    rw [nearestAway, if_neg (not_lt.mpr (by positivity)), Int.cast_natCast] at hwhole
    rw [Nat.cast_mul, Nat.cast_pow, Nat.cast_ofNat] at hwhole
    exact hwhole.symm
  | negSucc k =>
    have hpos : (0 : ℚ) < 2 ^ (k + 1) := by positivity
    rw [if_neg (Int.not_le.mpr (Int.negSucc_lt_zero k)), zpow_negSucc, ← div_eq_mul_inv]
    have hsum : (m : ℚ) / 2 ^ (k + 1) + 1 / 2 =
        ((2 * m + 2 ^ (k + 1) : ℕ) : ℚ) / (2 * 2 ^ (k + 1) : ℕ) := by
      push_cast
      field_simp
    rw [hsum, ← Int.natCast_floor_eq_floor (by positivity), Nat.floor_div_eq_div]
    rfl

theorem nearestInt?_eq (x : Float) : nearestInt? x = (value? x).map nearestAway := by
  rw [nearestInt?, value?]
  cases Binary.ofFloat x with
  | nan => rfl
  | infinite negative => rfl
  | finite negative m q =>
    refine congrArg some ?_
    have hpos : (0 : ℚ) ≤ m * 2 ^ q := by positivity
    cases negative with
    | false =>
      show (Binary.nearestWhole m q : ℤ) = nearestAway (m * 2 ^ q)
      rw [nearestWhole_eq, nearestAway, if_neg (not_lt.mpr hpos)]
    | true =>
      show -(Binary.nearestWhole m q : ℤ) = nearestAway (-(m * 2 ^ q))
      rw [nearestWhole_eq, nearestAway]
      obtain hzero | hlt := hpos.eq_or_lt
      · rw [← hzero]
        norm_num
      · rw [if_pos (neg_lt_zero.mpr hlt), neg_neg]

/-! ### Quotients by one number -/

/-- A number that has no value is infinite, and a quotient of it keeps or turns its sign. -/
theorem rank_div_of_infinite {c : Float} (hx : x.isNaN = false) (hnone : value? x = none)
    (hc : value? c = some b) (hb : b ≠ 0) :
    (rank x = infinityRank ∨ rank x = -infinityRank) ∧ (x / c).isNaN = false ∧
      rank (x / c) = if 0 < b then rank x else -rank x := by
  obtain ⟨s', huc, rfl⟩ | ⟨s', m, e, hm, huc, rfl⟩ := unpack_of_value hc
  · exact absurd rfl hb
  · have hpos : (0 : ℚ) < m * 2 ^ e := by positivity
    rw [value?, binary_eq_ofUnpacked] at hnone
    have hrank := (unpacked_of_number hx).2
    have hbits : (x / c).toBits.toNat = (UnpackedFloat.pack .binary64
      (UnpackedFloat.div .binary64 x.toModel.unpack c.toModel.unpack)).toNat := rfl
    cases hux : x.toModel.unpack with
    | notANumber =>
      have hnan : x.toModel.unpack.isNaN = false := hx
      rw [hux] at hnan
      cases hnan
    | zero s =>
      rw [hux] at hnone
      cases hnone
    | finite s m e hm =>
      rw [hux] at hnone
      cases hnone
    | infinity s =>
      rw [hux] at hrank
      rw [hux, huc] at hbits
      obtain ⟨hnumber, hquotient⟩ := number_of_bits le_rfl (hbits.trans (toNat_pack_infinity _))
      rw [hrank]
      refine ⟨by cases s <;> simp [unpackedRank, Sign.apply], hnumber, hquotient.trans ?_⟩
      cases s' with
      | negative =>
        rw [if_neg (show ¬0 < withSign .negative _ from not_lt.mpr (neg_nonpos.mpr hpos.le))]
        cases s
        · exact (neg_neg _).symm
        · rfl
      | positive =>
        rw [if_pos (show 0 < withSign .positive _ from hpos)]
        cases s <;> rfl

/-- Dividing by a positive number keeps the order, and by a negative number it turns it round. -/
theorem div_le_div {c : Float} (h : x ≤ y) (hc : value? c = some b) (hb : b ≠ 0) :
    if 0 < b then x / c ≤ y / c else y / c ≤ x / c := by
  obtain ⟨hnx, hny, hrank⟩ := le_iff.mp h
  have hranks : (x / c).isNaN = false ∧ (y / c).isNaN = false ∧
      if 0 < b then rank (x / c) ≤ rank (y / c) else rank (y / c) ≤ rank (x / c) := by
    cases hx : value? x with
    | some v =>
      have hleft := nearest_div hx hc hb
      cases hy : value? y with
      | some w =>
        have hvw := (value_le_iff hx hy).mp h
        have hright := nearest_div hy hc hb
        refine ⟨hleft.number, hright.number, ?_⟩
        rw [hleft.rank_eq, hright.rank_eq]
        split
        · exact nearestRank_mono (by gcongr)
        · next hneg => exact nearestRank_mono (div_le_div_of_nonpos_of_le (not_lt.mp hneg) hvw)
      | none =>
        obtain ⟨hinfinite, hnumber, hquotient⟩ := rank_div_of_infinite hny hy hc hb
        have hbetween := (isSome_value?_iff hnx).mp (hx ▸ rfl)
        have hbounds := rank_bounds hleft.number
        refine ⟨hleft.number, hnumber, ?_⟩
        split_ifs at hquotient ⊢ <;> omega
    | none =>
      obtain ⟨hinfinite, hnumber, hquotient⟩ := rank_div_of_infinite hnx hx hc hb
      cases hy : value? y with
      | some w =>
        have hright := nearest_div hy hc hb
        have hbetween := (isSome_value?_iff hny).mp (hy ▸ rfl)
        have hbounds := rank_bounds hright.number
        refine ⟨hnumber, hright.number, ?_⟩
        split_ifs at hquotient ⊢ <;> omega
      | none =>
        obtain ⟨-, hnumber', hquotient'⟩ := rank_div_of_infinite hny hy hc hb
        refine ⟨hnumber, hnumber', ?_⟩
        split_ifs at hquotient hquotient' ⊢ <;> omega
  rw [le_iff, le_iff]
  split_ifs at hranks ⊢ <;> tauto

end Order

/-! ### Integers as doubles -/

/-- An integer is a double. -/
def Exact (n : ℤ) : Prop := value? (Float.ofInt n) = some (n : ℚ)

/-- An integer of 64 bits. -/
def IsWord (n : ℤ) : Prop := -2 ^ 63 ≤ n ∧ n < 2 ^ 63

theorem exact_of_natAbs_lt {n : ℤ} (h : n.natAbs < 2 ^ 53) : Exact n := by
  rw [Exact, value?]
  cases n with
  | ofNat n =>
    obtain rfl | hpos := Nat.eq_zero_or_pos n
    · decide +kernel
    · rw [show Float.ofInt (.ofNat n) = Float.ofNat n from rfl, binary_ofNat hpos h]
      simp [zpow_neg]
  | negSucc n =>
    rw [show Float.ofInt (.negSucc n) = -Float.ofNat (n + 1) from rfl,
      binary_neg_ofNat (Nat.succ_pos n) h]
    simp [zpow_neg, Int.negSucc_eq]

theorem ofInt_le_ofInt {m n : ℤ} (h : m ≤ n) : Float.ofInt m ≤ Float.ofInt n :=
  (nearest_ofInt m).le (nearest_ofInt n) (by exact_mod_cast h)

theorem isFinite_ofNat {n : ℕ} (h : n < 2 ^ 64) : (Float.ofNat n).isFinite = true := by
  rw [isFinite_iff]
  refine isSome_value?_between ((nearest_ofNat 0).le (nearest_ofNat n) ?_)
    ((nearest_ofNat n).le (nearest_ofNat (2 ^ 64)) ?_) (by decide +kernel) (by decide +kernel)
  · exact_mod_cast n.zero_le
  · exact_mod_cast h.le

theorem isFinite_ofInt {n : ℤ} (h : IsWord n) : (Float.ofInt n).isFinite = true := by
  rw [isFinite_iff]
  exact isSome_value?_between (ofInt_le_ofInt h.1) (ofInt_le_ofInt h.2.le) (by decide +kernel)
    (by decide +kernel)

theorem saturate_mono {m n : ℤ} (h : m ≤ n) : saturate m ≤ saturate n :=
  max_le_max_left _ (min_le_min_right _ h)

theorem saturate_eq {n : ℤ} (h : IsWord n) : saturate n = n := by
  obtain ⟨hlow, hhigh⟩ := h
  rw [saturate, show twoTo 63 = 2 ^ 63 from rfl]
  omega

end RasterScript.Number
