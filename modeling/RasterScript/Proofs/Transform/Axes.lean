import Mathlib
import RasterScript.Proofs.Number.Order
import RasterScript.Proofs.Raster.Places
import RasterScript.Transform

/-! World pixels between two positions on an axis. Rounding keeps the order of positions, so a
position between two others falls on a pixel between theirs, also where a map turns the axis round.
The maps of this kind take each axis by itself and keep or turn its order. -/
namespace RasterScript

open Number (value? rank nearestAway)

namespace Transform

variable {x y z : Float} {p q r : ℤ}

/-! ### Pixels -/

theorem pixel?_eq (x : Float) :
    pixel? x = (value? x).map fun v => Number.saturate (nearestAway v) := by
  show (Number.nearestInt? x).map Number.saturate = _
  rw [Number.nearestInt?_eq, Option.map_map]
  rfl

theorem pixel?_of_value {n : ℤ} (hx : value? x = some (n : ℚ)) (hn : Number.IsWord n) :
    pixel? x = some n := by
  rw [pixel?_eq, hx, Option.map_some, Number.nearestAway_intCast, Number.saturate_eq hn]

private theorem pixel?_congr (h : value? x = value? y) : pixel? x = pixel? y := by
  rw [pixel?_eq, pixel?_eq, h]

private theorem isSome_pixel? (x : Float) : (pixel? x).isSome = (value? x).isSome := by
  rw [pixel?_eq, Option.isSome_map]

theorem pixel_le (h : x ≤ y) (hx : pixel? x = some p) (hy : pixel? y = some q) : p ≤ q := by
  rw [pixel?_eq, Option.map_eq_some_iff] at hx hy
  obtain ⟨v, hv, rfl⟩ := hx
  obtain ⟨w, hw, rfl⟩ := hy
  exact Number.saturate_mono (Number.nearestAway_mono ((Number.value_le_iff hv hw).mp h))

/-- What lies between two positions falls on a pixel between theirs. -/
theorem pixel_between (hxy : x ≤ y) (hyz : y ≤ z) (hx : pixel? x = some p)
    (hz : pixel? z = some r) :
    ∃ q, pixel? y = some q ∧ p ≤ q ∧ q ≤ r := by
  have hsome : (pixel? y).isSome = true := by
    rw [isSome_pixel?]
    refine Number.isSome_value?_between hxy hyz ?_ ?_
    · rw [← isSome_pixel?, hx, Option.isSome_some]
    · rw [← isSome_pixel?, hz, Option.isSome_some]
  obtain ⟨q, hq⟩ := Option.isSome_iff_exists.mp hsome
  exact ⟨q, hq, pixel_le hxy hx hq, pixel_le hyz hq hz⟩

/-! ### The pixels between two positions -/

/-- The first pixel between two positions and how many there are, if 32 bits can count them. -/
def span? (x y : Float) : Option (ℤ × ℕ) := do
  let low ← pixel? (Arithmetic.min x y)
  let high ← pixel? (Arithmetic.max x y)
  return (low, ← count? low high)

private theorem less_eq (hx : x.isNaN = false) (hy : y.isNaN = false) :
    Arithmetic.less x y = decide (rank x < rank y) := by
  show decide (x < y) = _
  rw [decide_eq_decide, Number.lt_iff]
  tauto

/-- Of two positions with one rank the second is taken, but both fall on the same pixel. -/
theorem pixel?_min_max (h : x ≤ y) :
    (pixel? (Arithmetic.min x y) = pixel? x ∧ pixel? (Arithmetic.max x y) = pixel? y) ∧
      pixel? (Arithmetic.min y x) = pixel? x ∧ pixel? (Arithmetic.max y x) = pixel? y := by
  obtain ⟨hx, hy, hrank⟩ := Number.le_iff.mp h
  have hnx : Arithmetic.isNaN x = false := hx
  have hny : Arithmetic.isNaN y = false := hy
  simp only [Arithmetic.min, Arithmetic.max, less_eq hx hy, less_eq hy hx, hnx, hny, Bool.false_or,
    decide_eq_true_eq, if_neg hrank.not_gt, and_true, true_and]
  by_cases hlt : rank x < rank y
  · rw [if_pos hlt, if_pos hlt]
    exact ⟨rfl, rfl⟩
  · rw [if_neg hlt, if_neg hlt]
    have hsame := Number.value?_eq_of_rank_eq (le_antisymm hrank (not_lt.mp hlt))
    exact ⟨(pixel?_congr hsame).symm, pixel?_congr hsame⟩

private theorem count?_eq_some_iff {low high : ℤ} {n : ℕ} :
    count? low high = some n ↔
      low ≤ high + 1 ∧ high - low + 1 < 2 ^ 32 ∧ (n : ℤ) = high - low + 1 := by
  have hsize : ((Number.twoTo 32 : ℕ) : ℤ) = 2 ^ 32 := rfl
  rw [count?]
  simp only [Bool.and_eq_true, decide_eq_true_eq, hsize]
  split
  · rw [Option.some_inj]
    omega
  · simp only [reduceCtorEq, false_iff]
    omega

private theorem span?_eq_some {low : ℤ} {n : ℕ} :
    span? x y = some (low, n) ↔ ∃ high, pixel? (Arithmetic.min x y) = some low ∧
      pixel? (Arithmetic.max x y) = some high ∧ count? low high = some n := by
  constructor
  · intro h
    obtain ⟨low, hlow, h⟩ := Option.bind_eq_some_iff.mp h
    obtain ⟨high, hhigh, h⟩ := Option.bind_eq_some_iff.mp h
    obtain ⟨n, hn, h⟩ := Option.bind_eq_some_iff.mp h
    cases h
    exact ⟨high, hlow, hhigh, hn⟩
  · rintro ⟨high, hlow, hhigh, hn⟩
    rw [span?, hlow, hhigh]
    show (count? low high >>= fun n => some (low, n)) = _
    rw [hn]
    rfl

private theorem span?_eq_some_of_le (h : x ≤ y) {low : ℤ} {n : ℕ} :
    (span? x y = some (low, n) ↔ pixel? x = some low ∧
      ∃ q, pixel? y = some q ∧ low ≤ q ∧ (n : ℤ) = q - low + 1 ∧ n < 2 ^ 32) ∧
    (span? y x = some (low, n) ↔ span? x y = some (low, n)) := by
  obtain ⟨⟨hmin, hmax⟩, hmin', hmax'⟩ := pixel?_min_max h
  simp only [span?_eq_some, hmin, hmax, hmin', hmax', count?_eq_some_iff, and_true]
  constructor
  · rintro ⟨q, hp, hq, -, hsmall, hn⟩
    exact ⟨hp, q, hq, pixel_le h hp hq, hn, by omega⟩
  · rintro ⟨hp, q, hq, hle, hn, hsmall⟩
    exact ⟨q, hp, hq, by omega, by omega, hn⟩

/-- The pixels between two positions are those between their own, in either order. -/
theorem span?_eq_some_iff (hx : x.isNaN = false) (hy : y.isNaN = false) {low : ℤ} {n : ℕ} :
    span? x y = some (low, n) ↔ ∃ p q, pixel? x = some p ∧ pixel? y = some q ∧
      low = min p q ∧ (n : ℤ) = |q - p| + 1 ∧ n < 2 ^ 32 := by
  obtain hle | hle := le_total (rank x) (rank y)
  · have h := Number.le_iff.mpr ⟨hx, hy, hle⟩
    rw [(span?_eq_some_of_le h).1]
    constructor
    · rintro ⟨hp, q, hq, hpq, hn, hsmall⟩
      refine ⟨low, q, hp, hq, by omega, ?_, hsmall⟩
      rw [abs_of_nonneg (by omega), hn]
    · rintro ⟨p, q, hp, hq, rfl, hn, hsmall⟩
      have hpq := pixel_le h hp hq
      rw [abs_of_nonneg (by omega)] at hn
      rw [min_eq_left hpq]
      exact ⟨hp, q, hq, hpq, hn, hsmall⟩
  · have h := Number.le_iff.mpr ⟨hy, hx, hle⟩
    rw [(span?_eq_some_of_le h).2, (span?_eq_some_of_le h).1]
    constructor
    · rintro ⟨hq, p, hp, hpq, hn, hsmall⟩
      refine ⟨p, low, hp, hq, by omega, ?_, hsmall⟩
      rw [abs_of_nonpos (by omega), hn]
      omega
    · rintro ⟨p, q, hp, hq, rfl, hn, hsmall⟩
      have hpq := pixel_le h hq hp
      rw [abs_of_nonpos (by omega)] at hn
      rw [min_eq_right hpq]
      exact ⟨hq, p, hp, hpq, by omega, hsmall⟩

/-- A position between two others falls on a pixel between theirs. -/
theorem pixel_of_span? (h : x ≤ y ∧ y ≤ z ∨ z ≤ y ∧ y ≤ x) {low : ℤ} {n : ℕ}
    (hspan : span? x z = some (low, n)) : ∃ q, pixel? y = some q ∧ low ≤ q ∧ q ≤ low + n - 1 := by
  obtain ⟨hxy, hyz⟩ | ⟨hzy, hyx⟩ := h
  · have hxz := Number.le_trans hxy hyz
    obtain ⟨hx, r, hz, -, hn, -⟩ := (span?_eq_some_of_le hxz).1.mp hspan
    obtain ⟨q, hq, hlow, hhigh⟩ := pixel_between hxy hyz hx hz
    exact ⟨q, hq, hlow, by omega⟩
  · have hzx := Number.le_trans hzy hyx
    obtain ⟨hz, r, hx, -, hn, -⟩ :=
      (span?_eq_some_of_le hzx).1.mp ((span?_eq_some_of_le hzx).2.mp hspan)
    obtain ⟨q, hq, hlow, hhigh⟩ := pixel_between hzy hyx hz hx
    exact ⟨q, hq, hlow, by omega⟩

/-- The pixels between the corners are found axis by axis. -/
theorem worldExtent?_eq_some_iff {t : Transform Float} {e b : Extent} :
    t.worldExtent? e = some b ↔
      ∃ u v, t.worldOf? e.minX e.minY = some u ∧ t.worldOf? e.maxX e.maxY = some v ∧
        span? u.1 v.1 = some (b.minX, b.width) ∧ span? u.2 v.2 = some (b.minY, b.height) := by
  constructor
  · intro h
    obtain ⟨u, hu, h⟩ := Option.bind_eq_some_iff.mp h
    obtain ⟨v, hv, h⟩ := Option.bind_eq_some_iff.mp h
    obtain ⟨minX, hminX, h⟩ := Option.bind_eq_some_iff.mp h
    obtain ⟨minY, hminY, h⟩ := Option.bind_eq_some_iff.mp h
    obtain ⟨maxX, hmaxX, h⟩ := Option.bind_eq_some_iff.mp h
    obtain ⟨maxY, hmaxY, h⟩ := Option.bind_eq_some_iff.mp h
    obtain ⟨width, hwidth, h⟩ := Option.bind_eq_some_iff.mp h
    obtain ⟨height, hheight, h⟩ := Option.bind_eq_some_iff.mp h
    cases h
    exact ⟨u, v, hu, hv, span?_eq_some.mpr ⟨maxX, hminX, hmaxX, hwidth⟩,
      span?_eq_some.mpr ⟨maxY, hminY, hmaxY, hheight⟩⟩
  · rintro ⟨u, v, hu, hv, hx, hy⟩
    obtain ⟨maxX, hminX, hmaxX, hwidth⟩ := span?_eq_some.mp hx
    obtain ⟨maxY, hminY, hmaxY, hheight⟩ := span?_eq_some.mp hy
    rw [worldExtent?, hu, hv]
    simp only [Option.bind_eq_bind, Option.bind_some, hminX, hminY, hmaxX, hmaxY, hwidth, hheight]
    rfl

/-! ### Maps that take each axis by itself -/

/-- A map that keeps the order of the finite positions on an axis, or turns it round. -/
def Ordered (f : Float → Float) : Prop :=
  (∀ x y : Float, x.isFinite → y.isFinite → x ≤ y → f x ≤ f y) ∨
    ∀ x y : Float, x.isFinite → y.isFinite → x ≤ y → f y ≤ f x

theorem Ordered.number {f : Float → Float} (hf : Ordered f) (hx : x.isFinite) :
    (f x).isNaN = false := by
  have hle : x ≤ x :=
    have hnumber := Number.number_of_isFinite hx
    Number.le_iff.mpr ⟨hnumber, hnumber, le_rfl⟩
  obtain hf | hf := hf
  · exact (Number.le_iff.mp (hf x x hx hx hle)).1
  · exact (Number.le_iff.mp (hf x x hx hx hle)).1

/-- The image of a coordinate between two others falls on a pixel between theirs. -/
theorem Ordered.pixel_of_span? {f : Float → Float} (hf : Ordered f) {low high n : ℤ}
    (hlow : Number.IsWord low) (hhigh : Number.IsWord high) (hln : low ≤ n) (hnh : n ≤ high)
    {first : ℤ} {count : ℕ}
    (h : span? (f (Float.ofInt low)) (f (Float.ofInt high)) = some (first, count)) :
    ∃ q, pixel? (f (Float.ofInt n)) = some q ∧ first ≤ q ∧ q ≤ first + count - 1 := by
  have hlow' := Number.isFinite_ofInt hlow
  have hhigh' := Number.isFinite_ofInt hhigh
  have hn := Number.isFinite_ofInt ⟨hlow.1.trans hln, hnh.trans_lt hhigh.2⟩
  have hleft := Number.ofInt_le_ofInt hln
  have hright := Number.ofInt_le_ofInt hnh
  apply Transform.pixel_of_span? ?_ h
  obtain hf | hf := hf
  · exact .inl ⟨hf _ _ hlow' hn hleft, hf _ _ hn hhigh' hright⟩
  · exact .inr ⟨hf _ _ hn hhigh' hright, hf _ _ hlow' hn hleft⟩

/-- The axes of a map: its inverse takes each of them by itself and keeps or turns its order. A map
that is known to leave coordinates as they are does so. -/
structure Axes (t : Transform Float) where
  across : Float → Float
  down : Float → Float
  toWorld_eq : ∀ x y, t.toWorld x y = some (across x, down y)
  ordered_across : Ordered across
  ordered_down : Ordered down
  same : t.isIdentity = true → ∀ x : Float, x.isFinite →
    value? (across x) = value? x ∧ value? (down x) = value? x

/-- Without a map every position stays in place. -/
def identityAxes : Axes identity where
  across := id
  down := id
  toWorld_eq _ _ := rfl
  ordered_across := .inl fun _ _ _ _ h => h
  ordered_down := .inl fun _ _ _ _ h => h
  same _ _ _ := ⟨rfl, rfl⟩

section Affine

variable {scale offset : Float} {a b : ℚ}

private theorem ordered_affine (hscale : value? scale = some a) (ha : a ≠ 0)
    (hoffset : value? offset = some b) : Ordered fun x => (x - offset) / scale := by
  have hsub (x y : Float) (hx : x.isFinite) (hy : y.isFinite) (h : x ≤ y) :
      x - offset ≤ y - offset := by
    obtain ⟨v, hv⟩ := Option.isSome_iff_exists.mp (Number.isFinite_iff.mp hx)
    obtain ⟨w, hw⟩ := Option.isSome_iff_exists.mp (Number.isFinite_iff.mp hy)
    have hvw := (Number.value_le_iff hv hw).mp h
    exact (Number.nearest_sub hv hoffset).le (Number.nearest_sub hw hoffset) (by linarith)
  by_cases hpos : 0 < a
  · refine .inl fun x y hx hy h => ?_
    have hdiv := Number.div_le_div (hsub x y hx hy h) hscale ha
    rwa [if_pos hpos] at hdiv
  · refine .inr fun x y hx hy h => ?_
    have hdiv := Number.div_le_div (hsub x y hx hy h) hscale ha
    rwa [if_neg hpos] at hdiv

private theorem value?_affine (hscale : value? scale = some 1) (hoffset : value? offset = some 0)
    (hx : x.isFinite) : value? ((x - offset) / scale) = value? x := by
  obtain ⟨v, hv⟩ := Option.isSome_iff_exists.mp (Number.isFinite_iff.mp hx)
  have hsub := Number.nearest_sub hv hoffset
  rw [sub_zero] at hsub
  have hdiv := Number.nearest_div (hsub.value_eq hv) hscale one_ne_zero
  rw [div_one] at hdiv
  rw [hdiv.value_eq hv, hv]

private theorem beq_zero_eq_false (hscale : value? scale = some a) :
    (scale == 0) = false ↔ a ≠ 0 := by
  have hzero : value? 0 = some 0 := by decide +kernel
  rw [← Bool.not_eq_true, Number.value_beq_iff hscale hzero]

end Affine

/-- Scales that are not zero can be divided by, also where they turn an axis round. -/
theorem nonempty_affineAxes {scaleX scaleY offsetX offsetY : Float} (hsx : scaleX.isFinite)
    (hsy : scaleY.isFinite) (hox : offsetX.isFinite) (hoy : offsetY.isFinite)
    (hx : (scaleX == 0) = false) (hy : (scaleY == 0) = false) :
    Nonempty (Axes (affine scaleX scaleY offsetX offsetY)) := by
  obtain ⟨a, hsx⟩ := Option.isSome_iff_exists.mp (Number.isFinite_iff.mp hsx)
  obtain ⟨b, hsy⟩ := Option.isSome_iff_exists.mp (Number.isFinite_iff.mp hsy)
  obtain ⟨c, hox⟩ := Option.isSome_iff_exists.mp (Number.isFinite_iff.mp hox)
  obtain ⟨d, hoy⟩ := Option.isSome_iff_exists.mp (Number.isFinite_iff.mp hoy)
  have hzero : Arithmetic.ofInt 0 = (0 : Float) := by decide +kernel
  have hvalue : value? (Arithmetic.ofInt 0) = some 0 := by decide +kernel
  have hone : value? (Arithmetic.ofInt 1) = some 1 := by decide +kernel
  refine ⟨fun x => (x - offsetX) / scaleX, fun y => (y - offsetY) / scaleY, fun x y => ?_,
    ordered_affine hsx ((beq_zero_eq_false hsx).mp hx) hox,
    ordered_affine hsy ((beq_zero_eq_false hsy).mp hy) hoy, fun hidentity x hfinite => ?_⟩
  · show (if scaleX == Arithmetic.ofInt 0 || scaleY == Arithmetic.ofInt 0 then none else _) = _
    rw [hzero, hx, hy]
    rfl
  · simp only [affine, Bool.and_eq_true] at hidentity
    obtain ⟨⟨⟨h₁, h₂⟩, h₃⟩, h₄⟩ := hidentity
    obtain rfl := (Number.value_beq_iff hsx hone).mp h₁
    obtain rfl := (Number.value_beq_iff hsy hone).mp h₂
    obtain rfl := (Number.value_beq_iff hox hvalue).mp h₃
    obtain rfl := (Number.value_beq_iff hoy hvalue).mp h₄
    exact ⟨value?_affine hsx hox hfinite, value?_affine hsy hoy hfinite⟩

end Transform

/-! ### Pixels of an extent -/

namespace Extent

/-- The corners have coordinates of 64 bits. -/
structure InWords (e : Extent) : Prop where
  minX : Number.IsWord e.minX
  minY : Number.IsWord e.minY
  maxX : Number.IsWord e.maxX
  maxY : Number.IsWord e.maxY

/-- The corners have coordinates that are doubles. -/
structure ExactCorners (e : Extent) : Prop where
  minX : Number.Exact e.minX
  minY : Number.Exact e.minY
  maxX : Number.Exact e.maxX
  maxY : Number.Exact e.maxY

/-- The doubles of two coordinates fall on a pixel of the extent. -/
def Keeps (e : Extent) (px py : ℤ) : Prop :=
  ∃ p q, Transform.pixel? (Float.ofInt px) = some p ∧ Transform.pixel? (Float.ofInt py) = some q ∧
    e.contains p q

/-- Both corners stay inside when their coordinates become doubles. -/
def KeepsCorners (e : Extent) : Prop := e.Keeps e.minX e.minY ∧ e.Keeps e.maxX e.maxY

theorem contains_corners (e : Extent) (h : e.isEmpty = false) :
    e.contains e.minX e.minY ∧ e.contains e.maxX e.maxY := by
  simp only [isEmpty, Bool.or_eq_false_iff, decide_eq_false_iff_not] at h
  rw [contains_iff, contains_iff, maxX, maxY]
  omega

theorem InWords.isWord {e : Extent} (he : e.InWords) {px py : ℤ} (hin : e.contains px py) :
    Number.IsWord px ∧ Number.IsWord py := by
  simp only [contains, Bool.and_eq_true, decide_eq_true_eq] at hin
  exact ⟨⟨he.minX.1.trans hin.1.1.1, hin.1.1.2.trans_lt he.maxX.2⟩,
    he.minY.1.trans hin.1.2, hin.2.trans_lt he.maxY.2⟩

theorem keepsCorners_of_exact {e : Extent} (hwords : e.InWords) (hempty : e.isEmpty = false)
    (hexact : e.ExactCorners) : e.KeepsCorners := by
  obtain ⟨hfirst, hlast⟩ := e.contains_corners hempty
  exact ⟨⟨_, _, Transform.pixel?_of_value hexact.minX hwords.minX,
    Transform.pixel?_of_value hexact.minY hwords.minY, hfirst⟩, _, _,
    Transform.pixel?_of_value hexact.maxX hwords.maxX,
    Transform.pixel?_of_value hexact.maxY hwords.maxY, hlast⟩

end Extent

namespace Transform.Axes

variable {t : Transform Float} (axes : Axes t) {e b : Extent} {px py : ℤ}
include axes

theorem worldOf?_eq (px py : ℤ) :
    t.worldOf? px py = some (axes.across (Float.ofInt px), axes.down (Float.ofInt py)) :=
  axes.toWorld_eq ..

theorem sweepPosition?_isSome_iff :
    (t.sweepPosition? b px py).isSome = true ↔ ∃ p q,
      pixel? (axes.across (Float.ofInt px)) = some p ∧
      pixel? (axes.down (Float.ofInt py)) = some q ∧ b.contains p q := by
  have hposition : t.sweepPosition? b px py = (do
      let p ← pixel? (axes.across (Float.ofInt px))
      let q ← pixel? (axes.down (Float.ofInt py))
      if b.contains p q then some (axes.across (Float.ofInt px), axes.down (Float.ofInt py))
      else none) := by
    rw [sweepPosition?, axes.worldOf?_eq]
    simp only [Option.bind_eq_bind, Option.bind_some, pixelAt?, Option.bind_assoc]
    rfl
  rw [hposition]
  cases pixel? (axes.across (Float.ofInt px)) with
  | none => simp
  | some p =>
    cases pixel? (axes.down (Float.ofInt py)) with
    | none => simp
    | some q => cases hin : b.contains p q <;> simp [hin]

/-- The pixels between the corners of an extent are those of its pixels. -/
theorem covers_worldExtent? (he : e.InWords) (h : t.worldExtent? e = some b)
    (hin : e.contains px py) : (t.sweepPosition? b px py).isSome = true := by
  obtain ⟨⟨hleft, hright⟩, hup, hdown⟩ := Extent.contains_iff.mp hin
  obtain ⟨u, v, hu, hv, hx, hy⟩ := worldExtent?_eq_some_iff.mp h
  rw [axes.worldOf?_eq] at hu hv
  cases hu
  cases hv
  obtain ⟨p, hp, hlow, hhigh⟩ := axes.ordered_across.pixel_of_span? he.minX he.maxX hleft
    (show px ≤ e.maxX by rw [Extent.maxX]; omega) hx
  obtain ⟨q, hq, hlow', hhigh'⟩ := axes.ordered_down.pixel_of_span? he.minY he.maxY hup
    (show py ≤ e.maxY by rw [Extent.maxY]; omega) hy
  rw [axes.sweepPosition?_isSome_iff]
  refine ⟨p, q, hp, hq, Extent.contains_iff.mpr ?_⟩
  omega

/-- A map that leaves coordinates as they are loses pixels only where it loses a corner. -/
theorem covers_identity (hidentity : t.isIdentity = true) (he : e.InWords)
    (hempty : e.isEmpty = false) :
    (∀ px py, e.contains px py → (t.sweepPosition? e px py).isSome = true) ↔ e.KeepsCorners := by
  have hkeeps {px py : ℤ} (hx : Number.IsWord px) (hy : Number.IsWord py) :
      (t.sweepPosition? e px py).isSome = true ↔ e.Keeps px py := by
    rw [axes.sweepPosition?_isSome_iff, Extent.Keeps,
      pixel?_congr (axes.same hidentity _ (Number.isFinite_ofInt hx)).1,
      pixel?_congr (axes.same hidentity _ (Number.isFinite_ofInt hy)).2]
  constructor
  · intro hall
    obtain ⟨hfirst, hlast⟩ := e.contains_corners hempty
    exact ⟨(hkeeps he.minX he.minY).mp (hall _ _ hfirst),
      (hkeeps he.maxX he.maxY).mp (hall _ _ hlast)⟩
  · rintro ⟨⟨left, up, hleft, hup, hfirst⟩, right, down, hright, hdown, hlast⟩ px py hin
    obtain ⟨hwordX, hwordY⟩ := he.isWord hin
    rw [hkeeps hwordX hwordY]
    simp only [Extent.contains, Bool.and_eq_true, decide_eq_true_eq] at hin hfirst hlast
    obtain ⟨⟨⟨hminX, hmaxX⟩, hminY⟩, hmaxY⟩ := hin
    obtain ⟨p, hp, hp₁, hp₂⟩ := pixel_between (Number.ofInt_le_ofInt hminX)
      (Number.ofInt_le_ofInt hmaxX) hleft hright
    obtain ⟨q, hq, hq₁, hq₂⟩ := pixel_between (Number.ofInt_le_ofInt hminY)
      (Number.ofInt_le_ofInt hmaxY) hup hdown
    refine ⟨p, q, hp, hq, ?_⟩
    simp only [Extent.contains, Bool.and_eq_true, decide_eq_true_eq]
    omega

end Transform.Axes

end RasterScript
