import Mathlib
import RasterScript.Proofs.Raster.Words
import RasterScript.Proofs.Transform.Axes

/-! World pixels between two corners, counted in machine words. Too many of them are refused; and if
there are more than words hold, then a program with checked words stops, and one with wrapping words
mistakes just one number of them for another, 2 ^ 64 for none. -/
namespace RasterScript

open Number (IsWord)

variable {w : Words}

namespace Words

theorem signed_eq_none_iff {n : ℤ} : w.signed n = none ↔ w = .checked ∧ ¬IsWord n := by
  constructor
  · intro h
    have hn : ¬IsWord n := by
      intro hn
      rw [signed_of_isWord hn] at h
      cases h
    refine ⟨?_, hn⟩
    unfold signed at h
    split at h
    · cases h
    · cases w with
      | checked => rfl
      | wrapping => cases h
  · rintro ⟨rfl, hn⟩
    rw [Option.eq_none_iff_forall_ne_some]
    intro k hk
    exact hn (isWord_of_checked hk).1

theorem isWord_of_signed {n k : ℤ} (h : w.signed n = some k) : IsWord k := by
  unfold signed at h
  rw [twoTo_63, twoTo_64] at h
  split at h
  · next hn =>
    cases h
    simp only [Bool.and_eq_true, decide_eq_true_eq] at hn
    exact hn
  · cases w with
    | checked => cases h
    | wrapping =>
      cases h
      exact ⟨by omega, by omega⟩

/-- The next words after the largest are the smallest. -/
theorem signed_wrapping {n : ℤ} (hlow : 2 ^ 63 ≤ n) (hhigh : n < 2 ^ 64 + 2 ^ 63) :
    signed .wrapping n = some (n - 2 ^ 64) := by
  unfold signed
  rw [twoTo_63, twoTo_64, if_neg]
  · simp only [Option.some_inj]
    omega
  · simp only [Bool.and_eq_true, decide_eq_true_eq]
    omega

/-- One more than a distance of words. -/
theorem signed_add_one {d : ℤ} (hpos : 0 ≤ d) (hlarge : d < 2 ^ 64) :
    ((w.signed d).bind fun n => w.signed (n + 1)) = w.signed (d + 1) := by
  by_cases hd : IsWord d
  · rw [signed_of_isWord hd, Option.bind_some]
  · have hbeyond : 2 ^ 63 ≤ d := by
      rw [IsWord] at hd
      omega
    cases w with
    | checked =>
      rw [signed_eq_none_iff.mpr ⟨rfl, hd⟩, Option.bind_none, eq_comm, signed_eq_none_iff]
      refine ⟨rfl, fun hword => ?_⟩
      have := hword.2
      omega
    | wrapping =>
      have hnext : signed .wrapping (d - 2 ^ 64 + 1) = some (d - 2 ^ 64 + 1) :=
        signed_of_isWord ⟨by omega, by omega⟩
      have hlast : signed .wrapping (d + 1) = some (d + 1 - 2 ^ 64) :=
        signed_wrapping (by omega) (by omega)
      rw [signed_wrapping hbeyond (by omega), Option.bind_some, hnext, hlast, Option.some_inj]
      omega

end Words

theorem Extent.isWord_of_lastIn {start last : ℤ} {size : ℕ} (h : lastIn w start size = some last) :
    IsWord last := by
  obtain ⟨stop, -, hlast⟩ := Option.bind_eq_some_iff.mp h
  exact Words.isWord_of_signed hlast

namespace Transform

/-! ### Counts -/

/-- The pixels from one to another on an axis are counted in 32 bits. -/
def Counted (w : Words) (p q : ℤ) : Prop :=
  |q - p| + 1 < 2 ^ 32 ∨ w = .wrapping ∧ |q - p| + 1 = 2 ^ 64

/-- The program stops, as there are more of them than a word can hold. -/
def Overflows (w : Words) (p q : ℤ) : Prop := w = .checked ∧ 2 ^ 63 ≤ |q - p| + 1

private theorem not_overflows_of_counted {p q : ℤ} (h : Counted w p q) : ¬Overflows w p q := by
  rintro ⟨rfl, hlarge⟩
  rcases h with hsmall | ⟨⟨⟩, -⟩
  omega

/-- What counting comes to. -/
theorem countIn_cases {p q : ℤ} (hp : IsWord p) (hq : IsWord q) :
    (countIn w (min p q) (max p q) = none ∧ Overflows w p q) ∨
    (countIn w (min p q) (max p q) = some none ∧ ¬Counted w p q ∧ ¬Overflows w p q) ∨
    ∃ n, countIn w (min p q) (max p q) = some (some n) ∧ Counted w p q := by
  have hpos := abs_nonneg (q - p)
  have hlarge : |q - p| < 2 ^ 64 := by
    rw [abs_lt]
    exact ⟨by linarith [hp.2, hq.1], by linarith [hp.1, hq.2]⟩
  have hcount : countIn w (min p q) (max p q) = (w.signed (|q - p| + 1)).map fun n : ℤ =>
      if 0 ≤ n && n < Number.twoTo 32 then some n.toNat else none := by
    rw [countIn, max_sub_min_eq_abs, ← Words.signed_add_one hpos hlarge]
    cases w.signed |q - p| with
    | none => rfl
    | some n => exact (Option.map_eq_bind ..).symm
  rw [hcount, Counted, Overflows]
  generalize |q - p| = d at hpos hlarge ⊢
  have hsize : ((Number.twoTo 32 : ℕ) : ℤ) = 2 ^ 32 := rfl
  simp only [hsize, Bool.and_eq_true, decide_eq_true_eq]
  by_cases hd : d + 1 < 2 ^ 63
  · rw [Words.signed_of_isWord ⟨by omega, hd⟩, Option.map_some]
    split
    · exact .inr (.inr ⟨_, rfl, .inl (by omega)⟩)
    · refine .inr (.inl ⟨rfl, ?_, by omega⟩)
      omega
  · cases w with
    | checked =>
      refine .inl ⟨?_, rfl, by omega⟩
      rw [Words.signed_eq_none_iff.mpr ⟨rfl, fun hword => hd hword.2⟩, Option.map_none]
    | wrapping =>
      rw [Words.signed_wrapping (by omega) (by omega), Option.map_some]
      split
      · exact .inr (.inr ⟨_, rfl, .inr ⟨rfl, by omega⟩⟩)
      · refine .inr (.inl ⟨rfl, ?_, ?_⟩)
        · omega
        · rintro ⟨⟨⟩, -⟩

/-! ### Corners -/

variable {t : Transform Float} {e : Extent} {x y : Float} {p q : ℤ}

private theorem isWord_of_pixel? (h : pixel? x = some p) : IsWord p := by
  rw [pixel?_eq, Option.map_eq_some_iff] at h
  obtain ⟨v, -, rfl⟩ := h
  rw [Number.saturate, show Number.twoTo 63 = 2 ^ 63 from rfl]
  exact ⟨by omega, by omega⟩

private theorem pixelAt?_eq_some_iff {u : Float × Float} {p : ℤ × ℤ} :
    pixelAt? u = some p ↔ pixel? u.1 = some p.1 ∧ pixel? u.2 = some p.2 := by
  rw [pixelAt?]
  cases pixel? u.1 with
  | none => simp
  | some px => cases pixel? u.2 <;> simp [Prod.ext_iff]

private theorem pixelAt?_eq_none_iff {u : Float × Float} :
    pixelAt? u = none ↔ pixel? u.1 = none ∨ pixel? u.2 = none := by
  rw [pixelAt?]
  cases pixel? u.1 with
  | none => simp
  | some px => cases pixel? u.2 <;> simp

/-- The smaller of two positions falls on the smaller pixel, and the larger on the larger. -/
theorem pixel?_min_max_eq (hx : x.isNaN = false) (hy : y.isNaN = false) (hp : pixel? x = some p)
    (hq : pixel? y = some q) :
    pixel? (Arithmetic.min x y) = some (min p q) ∧
      pixel? (Arithmetic.max x y) = some (max p q) := by
  obtain hle | hle := le_total (Number.rank x) (Number.rank y)
  · have h := Number.le_iff.mpr ⟨hx, hy, hle⟩
    have hpq := pixel_le h hp hq
    obtain ⟨⟨hmin, hmax⟩, -⟩ := pixel?_min_max h
    rw [hmin, hmax, min_eq_left hpq, max_eq_right hpq]
    exact ⟨hp, hq⟩
  · have h := Number.le_iff.mpr ⟨hy, hx, hle⟩
    have hpq := pixel_le h hq hp
    obtain ⟨-, hmin, hmax⟩ := pixel?_min_max h
    rw [hmin, hmax, min_eq_right hpq, max_eq_left hpq]
    exact ⟨hq, hp⟩

private theorem pixel?_min_max_eq_none (hx : x.isNaN = false) (hy : y.isNaN = false)
    (h : pixel? x = none ∨ pixel? y = none) :
    pixel? (Arithmetic.min x y) = none ∨ pixel? (Arithmetic.max x y) = none := by
  obtain hle | hle := le_total (Number.rank x) (Number.rank y)
  · obtain ⟨⟨hmin, hmax⟩, -⟩ := pixel?_min_max (Number.le_iff.mpr ⟨hx, hy, hle⟩)
    rw [hmin, hmax]
    exact h
  · obtain ⟨-, hmin, hmax⟩ := pixel?_min_max (Number.le_iff.mpr ⟨hy, hx, hle⟩)
    rw [hmin, hmax]
    exact h.symm

theorem Axes.exists_worldOf? (axes : Axes t) {px py : ℤ} (hx : IsWord px) (hy : IsWord py) :
    ∃ u, t.worldOf? px py = some u ∧ u.1.isNaN = false ∧ u.2.isNaN = false :=
  ⟨_, axes.worldOf?_eq px py, axes.ordered_across.number (Number.isFinite_ofInt hx),
    axes.ordered_down.number (Number.isFinite_ofInt hy)⟩

/-- The corners of an extent fall on two world pixels. The last column and row are computed in
words. -/
def Corners (w : Words) (t : Transform Float) (e : Extent) (p q : ℤ × ℤ) : Prop :=
  ∃ right bottom u v, e.maxXIn w = some right ∧ e.maxYIn w = some bottom ∧
    t.worldOf? e.minX e.minY = some u ∧ t.worldOf? right bottom = some v ∧
    pixelAt? u = some p ∧ pixelAt? v = some q

/-- They do, and the columns and rows between them are counted. -/
def Spans (w : Words) (t : Transform Float) (e : Extent) : Prop :=
  ∃ p q, Corners w t e p q ∧ Counted w p.1 q.1 ∧ Counted w p.2 q.2

/-- The program stops at the last column or row, or at the count of columns or rows. -/
def Stops (w : Words) (t : Transform Float) (e : Extent) : Prop :=
  e.maxXIn w = none ∨ e.maxYIn w = none ∨
    ∃ p q, Corners w t e p q ∧
      (Overflows w p.1 q.1 ∨ Counted w p.1 q.1 ∧ Overflows w p.2 q.2)

theorem Corners.unique {p p' q q' : ℤ × ℤ} (h : Corners w t e p q) (h' : Corners w t e p' q') :
    p' = p ∧ q' = q := by
  obtain ⟨right, bottom, u, v, hright, hbottom, hu, hv, hp, hq⟩ := h
  obtain ⟨right', bottom', u', v', hright', hbottom', hu', hv', hp', hq'⟩ := h'
  cases hright.symm.trans hright'
  cases hbottom.symm.trans hbottom'
  cases hu.symm.trans hu'
  cases hv.symm.trans hv'
  exact ⟨Option.some.inj (hp'.symm.trans hp), Option.some.inj (hq'.symm.trans hq)⟩

theorem Corners.spans_iff {p q : ℤ × ℤ} (h : Corners w t e p q) :
    Spans w t e ↔ Counted w p.1 q.1 ∧ Counted w p.2 q.2 := by
  constructor
  · rintro ⟨p', q', h', hcounted⟩
    obtain ⟨rfl, rfl⟩ := h.unique h'
    exact hcounted
  · exact fun hcounted => ⟨p, q, h, hcounted⟩

theorem Corners.stops_iff {p q : ℤ × ℤ} (h : Corners w t e p q) :
    Stops w t e ↔ Overflows w p.1 q.1 ∨ Counted w p.1 q.1 ∧ Overflows w p.2 q.2 := by
  constructor
  · rintro (hnone | hnone | ⟨p', q', h', hoverflows⟩)
    · obtain ⟨right, bottom, u, v, hright, -⟩ := h
      cases hright.symm.trans hnone
    · obtain ⟨right, bottom, u, v, -, hbottom, -⟩ := h
      cases hbottom.symm.trans hnone
    · obtain ⟨rfl, rfl⟩ := h.unique h'
      exact hoverflows
  · exact fun hoverflows => .inr (.inr ⟨p, q, h, hoverflows⟩)

theorem Spans.not_stops (h : Spans w t e) : ¬Stops w t e := by
  obtain ⟨p, q, hcorners, hx, hy⟩ := h
  rw [hcorners.stops_iff]
  exact not_or.mpr ⟨not_overflows_of_counted hx, fun h => not_overflows_of_counted hy h.2⟩

section Search

private theorem run_found {α β : Type} (a : α) (f : α → OptionT Option β) :
    (OptionT.mk (some (some a)) >>= f).run = (f a).run := rfl

private theorem run_computed {α β : Type} (a : α) (f : α → OptionT Option β) :
    ((liftM (some a) : OptionT Option α) >>= f).run = (f a).run := rfl

variable {right bottom : ℤ} {u v : Float × Float} {p q : ℤ × ℤ}
  (hright : e.maxXIn w = some right) (hbottom : e.maxYIn w = some bottom)
  (hu : t.worldOf? e.minX e.minY = some u) (hv : t.worldOf? right bottom = some v)
  (hnu : u.1.isNaN = false ∧ u.2.isNaN = false) (hnv : v.1.isNaN = false ∧ v.2.isNaN = false)
include hright hbottom hu hv hnu hnv

/-- Between corners on pixels only the counts are left. -/
theorem worldExtentIn_of_pixels (hp : pixelAt? u = some p) (hq : pixelAt? v = some q) :
    t.worldExtentIn w e = OptionT.run do
      let width ← .mk (countIn w (min p.1 q.1) (max p.1 q.1))
      let height ← .mk (countIn w (min p.2 q.2) (max p.2 q.2))
      return ⟨min p.1 q.1, min p.2 q.2, width, height⟩ := by
  obtain ⟨hux, huy⟩ := hnu
  obtain ⟨hvx, hvy⟩ := hnv
  obtain ⟨hpx, hpy⟩ := pixelAt?_eq_some_iff.mp hp
  obtain ⟨hqx, hqy⟩ := pixelAt?_eq_some_iff.mp hq
  obtain ⟨hminX, hmaxX⟩ := pixel?_min_max_eq hux hvx hpx hqx
  obtain ⟨hminY, hmaxY⟩ := pixel?_min_max_eq huy hvy hpy hqy
  simp only [worldExtentIn, hu, hright, hbottom, hv, hminX, hminY, hmaxX, hmaxY, run_found,
    run_computed]

/-- A corner on no pixel is missed, whatever the order of the four coordinates. -/
theorem worldExtentIn_of_no_pixel (h : pixelAt? u = none ∨ pixelAt? v = none) :
    t.worldExtentIn w e = some none := by
  obtain ⟨hux, huy⟩ := hnu
  obtain ⟨hvx, hvy⟩ := hnv
  have hmissing : (pixel? (Arithmetic.min u.1 v.1) = none ∨ pixel? (Arithmetic.max u.1 v.1) = none) ∨
      pixel? (Arithmetic.min u.2 v.2) = none ∨ pixel? (Arithmetic.max u.2 v.2) = none := by
    rw [pixelAt?_eq_none_iff, pixelAt?_eq_none_iff] at h
    rcases h with (hx | hy) | hx | hy
    · exact .inl (pixel?_min_max_eq_none hux hvx (.inl hx))
    · exact .inr (pixel?_min_max_eq_none huy hvy (.inl hy))
    · exact .inl (pixel?_min_max_eq_none hux hvx (.inr hx))
    · exact .inr (pixel?_min_max_eq_none huy hvy (.inr hy))
  simp only [worldExtentIn, hu, hright, hbottom, hv, run_found, run_computed]
  generalize pixel? (Arithmetic.min u.1 v.1) = minX at hmissing ⊢
  generalize pixel? (Arithmetic.max u.1 v.1) = maxX at hmissing ⊢
  generalize pixel? (Arithmetic.min u.2 v.2) = minY at hmissing ⊢
  generalize pixel? (Arithmetic.max u.2 v.2) = maxY at hmissing ⊢
  cases minX with
  | none => rfl
  | some minX =>
    cases minY with
    | none => rfl
    | some minY =>
      cases maxX with
      | none => rfl
      | some maxX =>
        cases maxY with
        | none => rfl
        | some maxY => rcases hmissing with (⟨⟨⟩⟩ | ⟨⟨⟩⟩) | ⟨⟨⟩⟩ | ⟨⟨⟩⟩

end Search

private theorem not_corners {right bottom : ℤ} {u v : Float × Float}
    (hright : e.maxXIn w = some right) (hbottom : e.maxYIn w = some bottom)
    (hu : t.worldOf? e.minX e.minY = some u) (hv : t.worldOf? right bottom = some v)
    (h : pixelAt? u = none ∨ pixelAt? v = none) (p q : ℤ × ℤ) : ¬Corners w t e p q := by
  rintro ⟨right', bottom', u', v', hright', hbottom', hu', hv', hp, hq⟩
  cases hright.symm.trans hright'
  cases hbottom.symm.trans hbottom'
  cases hu.symm.trans hu'
  cases hv.symm.trans hv'
  rcases h with h | h
  · cases h.symm.trans hp
  · cases h.symm.trans hq

/-- What the search for the world pixels of an extent comes to. -/
theorem Axes.worldExtentIn_cases (axes : Axes t) (he : e.Storable) :
    (t.worldExtentIn w e = none ∧ Stops w t e) ∨
    (t.worldExtentIn w e = some none ∧ ¬Spans w t e ∧ ¬Stops w t e) ∨
    ∃ b, t.worldExtentIn w e = some (some b) ∧ Spans w t e := by
  obtain ⟨u, hu, hnu⟩ := axes.exists_worldOf? he.minX he.minY
  cases hright : e.maxXIn w with
  | none =>
    refine .inl ⟨?_, .inl hright⟩
    rw [worldExtentIn, hu, hright]
    rfl
  | some right =>
    cases hbottom : e.maxYIn w with
    | none =>
      refine .inl ⟨?_, .inr (.inl hbottom)⟩
      rw [worldExtentIn, hu, hright, hbottom]
      rfl
    | some bottom =>
      obtain ⟨v, hv, hnv⟩ := axes.exists_worldOf? (Extent.isWord_of_lastIn hright)
        (Extent.isWord_of_lastIn hbottom)
      by_cases hpixels : pixelAt? u = none ∨ pixelAt? v = none
      · have hnone := not_corners hright hbottom hu hv hpixels
        refine .inr (.inl ⟨worldExtentIn_of_no_pixel hright hbottom hu hv hnu hnv hpixels, ?_, ?_⟩)
        · rintro ⟨p, q, hcorners, -⟩
          exact hnone p q hcorners
        · rintro (h | h | ⟨p, q, hcorners, -⟩)
          · cases hright.symm.trans h
          · cases hbottom.symm.trans h
          · exact hnone p q hcorners
      · obtain ⟨hp, hq⟩ := not_or.mp hpixels
        obtain ⟨p, hp⟩ := Option.ne_none_iff_exists'.mp hp
        obtain ⟨q, hq⟩ := Option.ne_none_iff_exists'.mp hq
        have hcorners : Corners w t e p q := ⟨_, _, u, v, hright, hbottom, hu, hv, hp, hq⟩
        have hsearch := worldExtentIn_of_pixels hright hbottom hu hv hnu hnv hp hq
        obtain ⟨hpx, hpy⟩ := pixelAt?_eq_some_iff.mp hp
        obtain ⟨hqx, hqy⟩ := pixelAt?_eq_some_iff.mp hq
        rw [hsearch, hcorners.spans_iff, hcorners.stops_iff]
        rcases @countIn_cases w _ _ (isWord_of_pixel? hpx) (isWord_of_pixel? hqx) with
          ⟨hwidth, hstops⟩ | ⟨hwidth, huncounted, hgoes⟩ | ⟨width, hwidth, hcounted⟩
        · exact .inl ⟨by rw [hwidth]; rfl, .inl hstops⟩
        · refine .inr (.inl ⟨by rw [hwidth]; rfl, fun h => huncounted h.1, ?_⟩)
          exact not_or.mpr ⟨hgoes, fun h => huncounted h.1⟩
        · rcases @countIn_cases w _ _ (isWord_of_pixel? hpy) (isWord_of_pixel? hqy) with
            ⟨hheight, hstops⟩ | ⟨hheight, huncounted, hgoes⟩ | ⟨height, hheight, hcounted'⟩
          · exact .inl ⟨by rw [hwidth, hheight]; rfl, .inr ⟨hcounted, hstops⟩⟩
          · refine .inr (.inl ⟨by rw [hwidth, hheight]; rfl, fun h => huncounted h.2, ?_⟩)
            exact not_or.mpr ⟨not_overflows_of_counted hcounted, fun h => hgoes h.2⟩
          · exact .inr (.inr ⟨_, by rw [hwidth, hheight]; rfl, hcounted, hcounted'⟩)

end Transform

end RasterScript
