import Mathlib
import RasterScript.Proofs.Session.Coverage
import RasterScript.Proofs.Transform.Words

/-! Bounds taken from the first destination that is bound: which of its pixels a sweep inside them
visits, what they are for a destination that is only moved, and when there are none. -/
namespace RasterScript

open Number (value?)
open Transform (Axes pixel? span?)

namespace Session

variable {s t : Session} {g : Gallery} {i : ℕ} {first : BoundRaster} {b : Extent}

/-- Bounds are those of the raster itself or of the world pixels between its corners. -/
theorem defaultBounds_of_first (hfirst : firstBound? s.destinations = some (i, first)) :
    s.defaultBounds g =
      if first.transform.isIdentity then .ok (extentOf g first.raster)
      else (first.transform.worldExtent? (extentOf g first.raster)).elim
        (.error (.nonInvertible (s.code.destinationName i))) .ok := by
  simp only [defaultBounds, hfirst]
  split
  · rfl
  · cases first.transform.worldExtent? (extentOf g first.raster) <;> rfl

private theorem setDefaultBounds_eq_ok :
    s.setDefaultBounds g = .ok t ↔ ∃ b, s.defaultBounds g = .ok b ∧ t = s.setBounds b := by
  rw [setDefaultBounds]
  cases s.defaultBounds g with
  | error f => simp [Except.map]
  | ok b => simp [Except.map, eq_comm]

/-! ### Pixels inside the default bounds -/

/-- All pixels of a grid have positions inside the bounds. -/
def Covers (t : Transform Float) (bounds grid : Extent) : Prop :=
  ∀ px py, grid.contains px py → (t.sweepPosition? bounds px py).isSome = true

/-- Default bounds lose pixels only if the coordinates of a raster without a transform are too large
for doubles. -/
theorem covers_defaultBounds (hfirst : firstBound? s.destinations = some (i, first))
    (axes : Axes first.transform) (hwords : (extentOf g first.raster).InWords)
    (hempty : (extentOf g first.raster).isEmpty = false) (h : s.defaultBounds g = .ok b) :
    Covers first.transform b (extentOf g first.raster) ↔
      (first.transform.isIdentity = true → (extentOf g first.raster).KeepsCorners) := by
  rw [defaultBounds_of_first hfirst] at h
  cases hidentity : first.transform.isIdentity with
  | true =>
    rw [hidentity, if_pos rfl] at h
    cases h
    exact (axes.covers_identity hidentity hwords hempty).trans ⟨fun h _ => h, fun h => h rfl⟩
  | false =>
    rw [hidentity, if_neg Bool.false_ne_true] at h
    cases hextent : first.transform.worldExtent? (extentOf g first.raster) with
    | none =>
      rw [hextent] at h
      cases h
    | some e =>
      rw [hextent] at h
      cases h
      refine iff_of_true (fun px py hin => axes.covers_worldExtent? hwords hextent hin) ?_
      rintro ⟨⟩

/-- A sweep of a grid that is covered visits each of its pixels, row by row. -/
theorem map_visits {t : Transform Float} {grid : Extent} (h : Covers t b grid) :
    (visits t grid b).map (fun v => (v.px, v.py)) = grid.positions := by
  rw [visits, List.map_filterMap]
  have hsome : ∀ p ∈ grid.positions, ((t.sweepPosition? b p.1 p.2).map
      fun w : Float × Float => (⟨p.1, p.2, w.1, w.2⟩ : Visit)).map (fun v => (v.px, v.py)) =
        some p := by
    rintro ⟨px, py⟩ hmem
    obtain ⟨w, hw⟩ := Option.isSome_iff_exists.mp (h px py (Extent.mem_positions.mp hmem))
    rw [hw]
    rfl
  rw [List.filterMap_congr hsome]
  exact List.filterMap_some

private theorem worldOf?_of_mem_visits {t : Transform Float} {grid : Extent} {v : Visit}
    (h : v ∈ visits t grid b) : t.worldOf? v.px v.py = some (v.x, v.y) := by
  obtain ⟨⟨px, py⟩, -, hv⟩ := List.mem_filterMap.mp h
  obtain ⟨w, hw, rfl⟩ := Option.map_eq_some_iff.mp hv
  obtain ⟨p, hp, hw⟩ := Option.bind_eq_some_iff.mp hw
  obtain ⟨⟨x, y⟩, -, hw⟩ := Option.bind_eq_some_iff.mp hw
  obtain ⟨-, hw⟩ := Option.ite_none_right_eq_some.mp hw
  cases hw
  exact hp

private theorem firstBound?_cons (slot : BoundRaster) (rest : List (Option BoundRaster)) :
    firstBound? (some slot :: rest) = some (0, slot) := rfl

open Output (ofVisits noted?)

/-- A sweep that comes to its end inside bounds that cover the first destination has visited each
of its pixels once. -/
theorem sweep_of_covers {limit : ℕ} {every : ℕ → ℕ} (hbounds : s.bounds = some b)
    (hfirst : firstBound? s.destinations = some (i, first)) (axes : Axes first.transform)
    (hcovers : Covers first.transform b (extentOf g first.raster))
    (hok : (s.sweep limit every g).result = .ok ()) :
    ∃ vs : List Visit, vs.map (fun v => (v.px, v.py)) = (extentOf g first.raster).positions ∧
      (∀ v ∈ vs, first.transform.worldOf? v.px v.py = some (v.x, v.y)) ∧
      (s.sweep limit every g).events =
        Progress.events (every vs.length) vs.length vs.length true ∧
      ∃ values, values.length = vs.length ∧
        (s.sweep limit every g).writes = (ofVisits vs values).filterMap (noted? s) := by
  cases hprepare : s.prepare g with
  | error f =>
    rw [sweep_of_error hprepare] at hok
    cases hok
  | ok prepared =>
    obtain ⟨u, b'⟩ := prepared
    have hmissing := (prepare_ok hprepare).1
    have hsame := @prepare_eq_ok s g b hbounds (missingDestination?_eq_none.mp hmissing)
    obtain ⟨rfl, rfl⟩ := Prod.mk.inj (Except.ok.inj (hsame.symm.trans hprepare))
    have hhead : s.destinations.head? = some (some first) := by
      cases hdest : s.destinations with
      | nil =>
        rw [hdest] at hfirst
        cases hfirst
      | cons slot rest =>
        have hbound := missingDestination?_eq_none.mp hmissing slot (hdest ▸ List.mem_cons_self)
        obtain ⟨bound, rfl⟩ := Option.isSome_iff_exists.mp hbound
        rw [hdest, firstBound?_cons] at hfirst
        cases hfirst
        rfl
    have hplan : s.plan g b = .ok (visits first.transform (extentOf g first.raster) b) := by
      rw [plan, hhead]
      simp only [axes.worldOf?_eq, Option.isNone_some, Bool.and_false, Bool.false_eq_true, if_false]
    obtain ⟨u, q, halike, hvisits, hwrites, hevents⟩ := sweep_completed hprepare hplan hok
    obtain ⟨hdone, values, hvalues, -, hnoted⟩ := Progression.visitAll_ok hvisits
    refine ⟨_, map_visits hcovers, fun v => worldOf?_of_mem_visits, ?_, values, hvalues, ?_⟩
    · rw [hevents, hdone, Nat.zero_add]
    · rw [hwrites, hnoted, List.append_nil, List.reverse_reverse,
        Progression.noted?_congr halike.code halike.destinations]

/-- Where the inverse of a transform takes each axis by itself and keeps or turns its order, as
those of the identity and of scales that are not zero do, default bounds lose no pixel, unless there
is no transform and a corner has coordinates that are no doubles and round out of the raster. A
sweep inside them that comes to its end visits each pixel once. -/
theorem default_bounds_lose_no_pixel (s t : Session) (g : Gallery) (i : ℕ) (first : BoundRaster)
    (hfirst : firstBound? s.destinations = some (i, first))
    (hwords : (extentOf g first.raster).InWords)
    (hempty : (extentOf g first.raster).isEmpty = false) (hset : s.setDefaultBounds g = .ok t) :
    let grid := extentOf g first.raster
    (first.transform = .identity → Nonempty (Axes first.transform)) ∧
    (∀ scaleX scaleY offsetX offsetY : Float,
      first.transform = .affine scaleX scaleY offsetX offsetY → scaleX.isFinite → scaleY.isFinite →
      offsetX.isFinite → offsetY.isFinite → (scaleX == 0) = false → (scaleY == 0) = false →
      Nonempty (Axes first.transform)) ∧
    (Nonempty (Axes first.transform) →
      ∃ b, t = s.setBounds b ∧
        (Covers first.transform b grid ↔ (first.transform.isIdentity = true → grid.KeepsCorners)) ∧
        (grid.ExactCorners → Covers first.transform b grid) ∧
        (Covers first.transform b grid → ∀ limit every, (t.sweep limit every g).result = .ok () →
          grid.positions.Nodup ∧
          ∃ vs : List Visit, vs.map (fun v => (v.px, v.py)) = grid.positions ∧
            (∀ v ∈ vs, first.transform.worldOf? v.px v.py = some (v.x, v.y)) ∧
            (t.sweep limit every g).events =
              Progress.events (every vs.length) vs.length vs.length true ∧
            ∃ values, values.length = vs.length ∧
              (t.sweep limit every g).writes = (ofVisits vs values).filterMap (noted? t))) := by
  intro grid
  refine ⟨fun h => h ▸ ⟨Transform.identityAxes⟩, ?_, ?_⟩
  · intro scaleX scaleY offsetX offsetY h hsx hsy hox hoy
    rw [h]
    exact Transform.nonempty_affineAxes hsx hsy hox hoy
  · rintro ⟨axes⟩
    obtain ⟨b, hbounds, rfl⟩ := setDefaultBounds_eq_ok.mp hset
    have hcovers := covers_defaultBounds hfirst axes hwords hempty hbounds
    refine ⟨b, rfl, hcovers, fun hexact => hcovers.mpr fun _ =>
      Extent.keepsCorners_of_exact hwords hempty hexact, fun hall limit every hok => ?_⟩
    exact ⟨grid.nodup_positions, sweep_of_covers (s := s.setBounds b) rfl hfirst axes hall hok⟩

/-- A session of one destination. -/
def painter (transform : Transform Float) : Session :=
  { start painting with destinations := [some ⟨0, transform⟩] }

/-- A raster of zeros. -/
def blank (e : Extent) : Gallery := [.ofFunction e fun _ _ => 0]

/-- All pixels are visited of a raster that is turned upside down and stretched. -/
theorem turned_raster_is_covered :
    let grid : Extent := ⟨-1, 3, 3, 2⟩
    let transform : Transform Float := .affine 0.5 (-2) 1 0
    let t := (painter transform).setBounds ⟨-4, -2, 5, 1⟩
    (painter transform).setDefaultBounds (blank grid) = .ok t ∧
      Covers transform ⟨-4, -2, 5, 1⟩ grid ∧ (t.sweep 0 id (blank grid)).result = .ok () ∧
      ∃ vs : List Visit, vs.map (fun v => (v.px, v.py)) = grid.positions ∧
        ∃ values, values.length = vs.length ∧
          (t.sweep 0 id (blank grid)).writes = (ofVisits vs values).filterMap (noted? t) := by
  intro grid transform t
  have hbounds : (painter transform).defaultBounds (blank grid) = .ok ⟨-4, -2, 5, 1⟩ := by
    decide +kernel
  have hset := setDefaultBounds_eq_ok.mpr ⟨_, hbounds, rfl⟩
  have hok : (t.sweep 0 id (blank grid)).result = .ok () := by decide +kernel
  have hwords : grid.InWords := by
    constructor <;> exact ⟨by decide, by decide⟩
  have hexact : grid.ExactCorners := by
    constructor <;> exact Number.exact_of_natAbs_lt (by decide)
  obtain ⟨-, haxes, hbounded⟩ := default_bounds_lose_no_pixel (painter transform) t (blank grid) 0
    ⟨0, transform⟩ rfl hwords rfl hset
  obtain ⟨b, hb, -, hcovers, hsweep⟩ := hbounded (haxes 0.5 (-2) 1 0 rfl (by decide +kernel)
    (by decide +kernel) (by decide +kernel) (by decide +kernel) (by decide +kernel)
    (by decide +kernel))
  obtain rfl : ⟨-4, -2, 5, 1⟩ = b := Option.some.inj (congrArg Session.bounds hb)
  obtain ⟨-, vs, hpixels, -, -, hwrites⟩ := hsweep (hcovers hexact) 0 id hok
  exact ⟨hset, hcovers hexact, hok, vs, hpixels, hwrites⟩

/-- The only pixel of a raster is lost if its column is no double. -/
theorem large_column_is_lost :
    let e : Extent := ⟨2 ^ 53 + 1, 0, 1, 1⟩
    let s := painter .identity
    e.InWords ∧ e.isEmpty = false ∧ s.defaultBounds (blank e) = .ok e ∧
      Transform.sweepPosition? (.identity : Transform Float) e (2 ^ 53 + 1) 0 = none ∧
      ((s.setBounds e).sweep 0 id (blank e)).result = .ok () ∧
      ((s.setBounds e).sweep 0 id (blank e)).writes = [] := by
  refine ⟨?_, rfl, ?_, ?_, ?_, ?_⟩
  · constructor <;> exact ⟨by decide, by decide⟩
  · decide +kernel
  · decide +kernel
  · decide +kernel
  · decide +kernel

end Session

/-! ### Moved destinations -/

namespace Extent

/-- The same size at another place. -/
def moved (e : Extent) (dx dy : ℤ) : Extent := ⟨e.minX + dx, e.minY + dy, e.width, e.height⟩

theorem moved_zero (e : Extent) : e.moved 0 0 = e := by
  rw [moved, Int.add_zero, Int.add_zero]

/-- The pixels between the corners. An empty axis ends one pixel before it starts, and both of these
pixels count. -/
def spanned (e : Extent) : Extent where
  minX := if e.width = 0 then e.minX - 1 else e.minX
  minY := if e.height = 0 then e.minY - 1 else e.minY
  width := if e.width = 0 then 2 else e.width
  height := if e.height = 0 then 2 else e.height

theorem spanned_eq_iff (e : Extent) : e.spanned = e ↔ e.isEmpty = false := by
  obtain ⟨minX, minY, width, height⟩ := e
  simp only [spanned, isEmpty, mk.injEq, Bool.or_eq_false_iff, decide_eq_false_iff_not]
  split_ifs <;> omega

end Extent

namespace Transform

/-- The pixels between the ends of an axis. -/
theorem span?_of_values {x y : Float} {start : ℤ} {size : ℕ} (hsize : size < 2 ^ 32)
    (hstart : Number.IsWord start) (hend : Number.IsWord (start + size - 1))
    (hx : value? x = some (start : ℚ)) (hy : value? y = some ((start + size - 1 : ℤ) : ℚ)) :
    span? x y = some (if size = 0 then start - 1 else start, if size = 0 then 2 else size) := by
  rw [span?_eq_some_iff (Number.number_of_value hx) (Number.number_of_value hy)]
  refine ⟨_, _, pixel?_of_value hx hstart, pixel?_of_value hy hend, ?_⟩
  rw [show start + (size : ℤ) - 1 - start = size - 1 by ring]
  split
  · next h =>
    subst h
    refine ⟨by omega, ?_, by decide⟩
    rfl
  · next h =>
    rw [abs_of_nonneg (by omega)]
    exact ⟨by omega, by omega, hsize⟩

private theorem value?_translate {d : Float} {k n : ℤ} (hd : value? d = some (k : ℚ))
    (hn : Number.Exact n) (hmoved : Number.Exact (n + -k)) :
    value? ((Float.ofInt n - d) / Float.ofInt 1) = some ((n + -k : ℤ) : ℚ) := by
  have hone : value? (Float.ofInt 1) = some 1 := by decide +kernel
  have hsub := Number.nearest_sub hn hd
  rw [sub_eq_add_neg, ← Int.cast_neg, ← Int.cast_add] at hsub
  have hdiv := Number.nearest_div (hsub.value_eq hmoved) hone one_ne_zero
  rw [div_one] at hdiv
  exact hdiv.value_eq hmoved

section Translate

variable {e : Extent} (hwidth : e.width < 2 ^ 32) (hheight : e.height < 2 ^ 32)
include hwidth hheight

theorem worldExtent?_identity (hwords : e.InWords) (hexact : e.ExactCorners) :
    worldExtent? (.identity : Transform Float) e = some e.spanned := by
  refine worldExtent?_eq_some_iff.mpr ⟨_, _, rfl, rfl, ?_, ?_⟩
  · exact span?_of_values hwidth hwords.minX hwords.maxX hexact.minX hexact.maxX
  · exact span?_of_values hheight hwords.minY hwords.maxY hexact.minY hexact.maxY

theorem worldExtent?_translate (hexact : e.ExactCorners) {dx dy : Float} {k l : ℤ}
    (hdx : value? dx = some (k : ℚ)) (hdy : value? dy = some (l : ℚ))
    (hwords : (e.moved (-k) (-l)).InWords) (hmoved : (e.moved (-k) (-l)).ExactCorners) :
    worldExtent? (.translate dx dy) e = some (e.moved (-k) (-l)).spanned := by
  have hmaxX : (e.moved (-k) (-l)).maxX = e.maxX + -k := by
    show e.minX + -k + e.width - 1 = e.minX + e.width - 1 + -k
    ring
  have hmaxY : (e.moved (-k) (-l)).maxY = e.maxY + -l := by
    show e.minY + -l + e.height - 1 = e.minY + e.height - 1 + -l
    ring
  refine worldExtent?_eq_some_iff.mpr ⟨_, _, rfl, rfl, ?_, ?_⟩
  · refine span?_of_values hwidth hwords.minX hwords.maxX
      (value?_translate hdx hexact.minX hmoved.minX) ?_
    show _ = some (((e.moved (-k) (-l)).maxX : ℤ) : ℚ)
    rw [hmaxX]
    exact value?_translate hdx hexact.maxX (hmaxX ▸ hmoved.maxX)
  · refine span?_of_values hheight hwords.minY hwords.maxY
      (value?_translate hdy hexact.minY hmoved.minY) ?_
    show _ = some (((e.moved (-k) (-l)).maxY : ℤ) : ℚ)
    rw [hmaxY]
    exact value?_translate hdy hexact.maxY (hmaxY ▸ hmoved.maxY)

end Translate

theorem isIdentity_translate {dx dy : Float} {k l : ℤ} (hdx : value? dx = some (k : ℚ))
    (hdy : value? dy = some (l : ℚ)) :
    (translate dx dy).isIdentity = true ↔ k = 0 ∧ l = 0 := by
  have hzero : value? (Arithmetic.ofInt 0) = some 0 := by decide +kernel
  have hone : (Arithmetic.ofInt 1 == (Arithmetic.ofInt 1 : Float)) = true := by decide +kernel
  simp only [translate, affine, hone, Bool.true_and, Bool.and_eq_true,
    Number.value_beq_iff hdx hzero, Number.value_beq_iff hdy hzero, Int.cast_eq_zero]

end Transform

namespace Session

/-- Exact coordinates move exactly: a destination that is only moved has default bounds of its own
size, moved back, and a destination that stays in place has its own extent. The pixels between the
corners are the same ones, but only if there are any: from an empty axis they make two. -/
theorem default_bounds_of_moved (e : Extent) (hwords : e.InWords) (hexact : e.ExactCorners)
    (hwidth : e.width < 2 ^ 32) (hheight : e.height < 2 ^ 32) :
    (e.spanned = e ↔ e.isEmpty = false) ∧
    Transform.worldExtent? (.identity : Transform Float) e = some e.spanned ∧
    (∀ (s : Session) (g : Gallery) (i raster : ℕ),
      firstBound? s.destinations = some (i, ⟨raster, .identity⟩) → extentOf g raster = e →
      s.defaultBounds g = .ok e) ∧
    ∀ (dx dy : Float) (k l : ℤ), value? dx = some (k : ℚ) → value? dy = some (l : ℚ) →
      (e.moved (-k) (-l)).InWords → (e.moved (-k) (-l)).ExactCorners →
      Transform.worldExtent? (.translate dx dy) e = some (e.moved (-k) (-l)).spanned ∧
      ∀ (s : Session) (g : Gallery) (i raster : ℕ),
        firstBound? s.destinations = some (i, ⟨raster, .translate dx dy⟩) → extentOf g raster = e →
        s.defaultBounds g = .ok (if k = 0 ∧ l = 0 then e else (e.moved (-k) (-l)).spanned) ∧
        (e.isEmpty = false → s.defaultBounds g = .ok (e.moved (-k) (-l))) := by
  refine ⟨e.spanned_eq_iff, Transform.worldExtent?_identity hwidth hheight hwords hexact, ?_, ?_⟩
  · rintro s g i raster hfirst rfl
    exact defaultBounds_of_first hfirst
  · intro dx dy k l hdx hdy hwords' hmoved
    have hextent := Transform.worldExtent?_translate hwidth hheight hexact hdx hdy hwords' hmoved
    refine ⟨hextent, ?_⟩
    rintro s g i raster hfirst rfl
    have hbounds : s.defaultBounds g = .ok (if k = 0 ∧ l = 0 then extentOf g raster
        else ((extentOf g raster).moved (-k) (-l)).spanned) := by
      rw [defaultBounds_of_first hfirst]
      simp only [Transform.isIdentity_translate hdx hdy, hextent, Option.elim_some]
      split_ifs <;> rfl
    refine ⟨hbounds, fun hempty => ?_⟩
    rw [hbounds,
      (Extent.spanned_eq_iff _).mpr (show Extent.isEmpty (.moved _ _ _) = false from hempty)]
    split
    · next hstill =>
      rw [hstill.1, hstill.2, Int.neg_zero, Extent.moved_zero]
    · rfl

/-- A raster that is moved right and up has bounds that lie left and down of it. -/
theorem moved_raster_keeps_size :
    let e : Extent := ⟨3, 4, 2, 1⟩
    e.InWords ∧ e.ExactCorners ∧ value? 5 = some (5 : ℤ) ∧ value? (-7) = some (-7 : ℤ) ∧
      (painter (.translate 5 (-7))).defaultBounds (blank e) = .ok ⟨-2, 11, 2, 1⟩ := by
  intro e
  have hwords : e.InWords := by constructor <;> exact ⟨by decide, by decide⟩
  have hexact : e.ExactCorners := by constructor <;> exact Number.exact_of_natAbs_lt (by decide)
  have hdx : value? 5 = some (5 : ℤ) := by decide +kernel
  have hdy : value? (-7) = some (-7 : ℤ) := by decide +kernel
  refine ⟨hwords, hexact, hdx, hdy, ?_⟩
  have hmoved := (default_bounds_of_moved e hwords hexact (by decide) (by decide)).2.2.2 5 (-7) 5
    (-7) hdx hdy (by constructor <;> exact ⟨by decide, by decide⟩)
    (by constructor <;> exact Number.exact_of_natAbs_lt (by decide))
  exact (hmoved.2 (painter (.translate 5 (-7))) (blank e) 0 0 rfl rfl).2 rfl

/-- A raster with no columns, moved by one, gets bounds of two columns. -/
theorem empty_raster_gets_columns :
    let e : Extent := ⟨3, 4, 0, 2⟩
    (painter (.translate 1 0)).defaultBounds (blank e) = .ok ⟨1, 4, 2, 2⟩ ∧
      e.moved (-1) 0 = ⟨2, 4, 0, 2⟩ ∧
      Transform.worldExtent? (.identity : Transform Float) e = some ⟨2, 4, 2, 2⟩ :=
  ⟨by decide +kernel, by decide +kernel, by decide +kernel⟩

end Session

/-! ### Destinations that have no default bounds -/

namespace Transform

/-- The maps with finite parameters, some of which forget their inverse. -/
inductive Finite : Transform Float → Prop
  | identity : Finite .identity
  | affine {scaleX scaleY offsetX offsetY : Float} (hsx : scaleX.isFinite) (hsy : scaleY.isFinite)
      (hox : offsetX.isFinite) (hoy : offsetY.isFinite) :
      Finite (.affine scaleX scaleY offsetX offsetY)
  | oneWay {t : Transform Float} (h : Finite t) : Finite t.oneWay

/-- There is an inverse. -/
def Invertible (t : Transform Float) : Prop := ∃ x y, (t.toWorld x y).isSome = true

private theorem toWorld_affine (scaleX scaleY offsetX offsetY x y : Float) :
    (affine scaleX scaleY offsetX offsetY).toWorld x y =
      if scaleX == 0 || scaleY == 0 then none
      else some ((x - offsetX) / scaleX, (y - offsetY) / scaleY) := by
  have hzero : Arithmetic.ofInt 0 = (0 : Float) := by decide +kernel
  rw [← hzero]
  rfl

theorem invertible_affine_iff (scaleX scaleY offsetX offsetY : Float) :
    (affine scaleX scaleY offsetX offsetY).Invertible ↔
      (scaleX == 0) = false ∧ (scaleY == 0) = false := by
  simp only [Invertible, toWorld_affine]
  cases scaleX == 0 <;> cases scaleY == 0 <;> simp

theorem Finite.axes_iff {t : Transform Float} (h : t.Finite) :
    Nonempty (Axes t) ↔ t.Invertible := by
  constructor
  · rintro ⟨axes⟩
    exact ⟨0, 0, by rw [axes.toWorld_eq, Option.isSome_some]⟩
  · cases h with
    | identity => exact fun _ => ⟨identityAxes⟩
    | affine hsx hsy hox hoy =>
      intro hinverse
      obtain ⟨hx, hy⟩ := (invertible_affine_iff ..).mp hinverse
      exact nonempty_affineAxes hsx hsy hox hoy hx hy
    | oneWay h =>
      rintro ⟨x, y, hnone⟩
      cases hnone

theorem worldExtentIn_of_not_invertible {w : Words} {t : Transform Float} (h : ¬t.Invertible)
    (e : Extent) : t.worldExtentIn w e = some none := by
  have hnone : t.worldOf? e.minX e.minY = none := by
    rw [Option.eq_none_iff_forall_ne_some]
    intro u hu
    exact h ⟨_, _, Option.isSome_iff_exists.mpr ⟨u, hu⟩⟩
  rw [worldExtentIn, hnone]
  rfl

end Transform

namespace Session

section Step

variable {w : Words} {s : Session} {g : Gallery} {i : ℕ} {first : BoundRaster} {b : Extent}

private theorem takeDefaultBounds_ok (h : s.defaultBoundsIn w g = .ok b) :
    (takeDefaultBounds w g).run.run s = (.ok (), s.setBounds b) := by
  show ((liftM (s.defaultBoundsIn w g) : ExceptT Failure (StateM Session) Extent) >>=
    fun bounds => modify (·.setBounds bounds)).run.run s = _
  rw [h]
  rfl

private theorem takeDefaultBounds_error {f : Failure} (h : s.defaultBoundsIn w g = .error f) :
    (takeDefaultBounds w g).run.run s = (.error f, s) := by
  show ((liftM (s.defaultBoundsIn w g) : ExceptT Failure (StateM Session) Extent) >>=
    fun bounds => modify (·.setBounds bounds)).run.run s = _
  rw [h]
  rfl

private theorem defaultBoundsIn_of_identity (hfirst : firstBound? s.destinations = some (i, first))
    (h : first.transform.isIdentity = true) :
    s.defaultBoundsIn w g = .ok (extentOf g first.raster) := by
  rw [defaultBoundsIn, hfirst]
  simp only [h, if_true]
  rfl

/-- Otherwise it is the search for world pixels that decides. -/
theorem defaultBoundsIn_of_search (hfirst : firstBound? s.destinations = some (i, first))
    (h : first.transform.isIdentity = false) {found : Option (Option Extent)}
    (hfound : first.transform.worldExtentIn w (extentOf g first.raster) = found) :
    s.defaultBoundsIn w g = (Failure.ofWords found).bind fun e =>
      e.elim (.error (.nonInvertible (s.code.destinationName i))) .ok := by
  rw [defaultBoundsIn, hfirst]
  simp only [h, hfound, Bool.false_eq_true, if_false]
  cases found with
  | none => rfl
  | some e => cases e <;> rfl

/-- What taking the default bounds comes to. -/
theorem takeDefaultBounds_cases (hfirst : firstBound? s.destinations = some (i, first))
    (hfinite : first.transform.Finite) (hgrid : (extentOf g first.raster).Storable) :
    ((takeDefaultBounds w g).run.run s = (.error .stopped, s) ∧
      first.transform.isIdentity = false ∧ first.transform.Invertible ∧
      first.transform.Stops w (extentOf g first.raster)) ∨
    ((takeDefaultBounds w g).run.run s =
        (.error (.nonInvertible (s.code.destinationName i)), s) ∧
      first.transform.isIdentity = false ∧
      (¬first.transform.Invertible ∨ ¬first.transform.Spans w (extentOf g first.raster) ∧
        ¬first.transform.Stops w (extentOf g first.raster))) ∨
    ∃ b, (takeDefaultBounds w g).run.run s = (.ok (), s.setBounds b) ∧
      (first.transform.isIdentity = true ∨
        first.transform.Invertible ∧ first.transform.Spans w (extentOf g first.raster)) := by
  cases hidentity : first.transform.isIdentity with
  | true =>
    exact .inr (.inr ⟨_, takeDefaultBounds_ok (defaultBoundsIn_of_identity hfirst hidentity),
      .inl rfl⟩)
  | false =>
    by_cases hinverse : first.transform.Invertible
    · obtain ⟨axes⟩ := hfinite.axes_iff.mpr hinverse
      rcases axes.worldExtentIn_cases hgrid with
        ⟨hfound, hstops⟩ | ⟨hfound, hunseen⟩ | ⟨b, hfound, hspans⟩
      · have hbounds := defaultBoundsIn_of_search hfirst hidentity hfound
        exact .inl ⟨takeDefaultBounds_error hbounds, rfl, hinverse, hstops⟩
      · have hbounds := defaultBoundsIn_of_search hfirst hidentity hfound
        exact .inr (.inl ⟨takeDefaultBounds_error hbounds, rfl, .inr hunseen⟩)
      · have hbounds := defaultBoundsIn_of_search hfirst hidentity hfound
        exact .inr (.inr ⟨b, takeDefaultBounds_ok hbounds, .inr ⟨hinverse, hspans⟩⟩)
    · have hbounds := defaultBoundsIn_of_search hfirst hidentity
        (@Transform.worldExtentIn_of_not_invertible w _ hinverse (extentOf g first.raster))
      exact .inr (.inl ⟨takeDefaultBounds_error hbounds, rfl, .inl hinverse⟩)

end Step

/-- With finite parameters, default bounds are refused for a destination that has a transform and
either no inverse, which for scales means that one is zero, or corners that fall on no world pixels
or too far from each other for 32 bits. They are not refused but the program stops if checked words
do not hold the last column or row, or the distance of the corners. Otherwise they are set. Only
then does the session change. -/
theorem default_bounds_refused_iff (w : Words) (s : Session) (g : Gallery) (i : ℕ)
    (first : BoundRaster) (hfirst : firstBound? s.destinations = some (i, first))
    (hfinite : first.transform.Finite) (hgrid : (extentOf g first.raster).Storable) :
    let map := first.transform
    let grid := extentOf g first.raster
    let step : Except Failure Unit × Session := (takeDefaultBounds w g).run.run s
    (map = .identity → map.Invertible) ∧
    (∀ t : Transform Float, map = t.oneWay → ¬map.Invertible) ∧
    (∀ scaleX scaleY offsetX offsetY : Float, map = .affine scaleX scaleY offsetX offsetY →
      (map.Invertible ↔ (scaleX == 0) = false ∧ (scaleY == 0) = false)) ∧
    (step.1 = .error (.nonInvertible (s.code.destinationName i)) ↔
      map.isIdentity = false ∧ (¬map.Invertible ∨ ¬map.Spans w grid ∧ ¬map.Stops w grid)) ∧
    (step.1 = .error .stopped ↔ map.isIdentity = false ∧ map.Invertible ∧ map.Stops w grid) ∧
    ((∃ b, step = (.ok (), s.setBounds b)) ↔
      map.isIdentity = true ∨ map.Invertible ∧ map.Spans w grid) ∧
    ∀ f, step.1 = .error f → step.2 = s := by
  intro map grid step
  refine ⟨?_, ?_, ?_, ?_⟩
  · intro h
    rw [h]
    exact ⟨0, 0, rfl⟩
  · rintro t h
    rw [h]
    rintro ⟨x, y, hnone⟩
    cases hnone
  · intro scaleX scaleY offsetX offsetY h
    rw [h]
    exact Transform.invertible_affine_iff ..
  · have hexclusive : map.Spans w grid → ¬map.Stops w grid := Transform.Spans.not_stops
    obtain ⟨hstep, hcase⟩ | ⟨hstep, hcase⟩ | ⟨b, hstep, hcase⟩ :
        (step = (.error .stopped, s) ∧
          map.isIdentity = false ∧ map.Invertible ∧ map.Stops w grid) ∨
        (step = (.error (.nonInvertible (s.code.destinationName i)), s) ∧
          map.isIdentity = false ∧ (¬map.Invertible ∨ ¬map.Spans w grid ∧ ¬map.Stops w grid)) ∨
        ∃ b, step = (.ok (), s.setBounds b) ∧
          (map.isIdentity = true ∨ map.Invertible ∧ map.Spans w grid) :=
      takeDefaultBounds_cases hfirst hfinite hgrid
    · rw [hstep]
      simp only [reduceCtorEq, Except.error.injEq, Prod.mk.injEq, false_and, exists_false, true_iff,
        false_iff, implies_true, and_true]
      grind
    · rw [hstep]
      simp only [reduceCtorEq, Except.error.injEq, Prod.mk.injEq, false_and, exists_false, true_iff,
        false_iff, implies_true, and_true]
      grind
    · rw [hstep]
      simp only [reduceCtorEq, Prod.mk.injEq, true_and, false_iff]
      grind

/-- A raster whose columns all lie at one place has no default bounds. -/
theorem flat_raster_is_refused :
    let s := painter (.affine 0 1 5 0)
    let step := (takeDefaultBounds .checked (blank ⟨0, 0, 2, 1⟩)).run.run s
    firstBound? s.destinations = some (0, ⟨0, .affine 0 1 5 0⟩) ∧
      Transform.Finite (.affine 0 1 5 0) ∧ Extent.Storable ⟨0, 0, 2, 1⟩ ∧
      step.1 = .error (.nonInvertible "dest") ∧ step.2 = s := by
  intro s step
  have hfinite : Transform.Finite (.affine 0 1 5 0) := by constructor <;> decide +kernel
  have hgrid : Extent.Storable ⟨0, 0, 2, 1⟩ :=
    (Extent.fits_of_near (by decide) (by decide) (by decide) (by decide)).toStorable
  obtain ⟨-, -, hinvertible, hrefused, -, -, hsame⟩ := default_bounds_refused_iff .checked s
    (blank ⟨0, 0, 2, 1⟩) 0 ⟨0, .affine 0 1 5 0⟩ rfl hfinite hgrid
  have hflat : ¬Transform.Invertible (.affine 0 1 5 0) := by
    rw [hinvertible 0 1 5 0 rfl]
    decide +kernel
  have herror := hrefused.mpr ⟨by decide +kernel, .inl hflat⟩
  exact ⟨rfl, hfinite, hgrid, herror, hsame _ herror⟩

/-- Two columns that lie ten billion apart are refused, though the transform has an inverse. If they
lie as far apart as there are words, then the program stops or counts no columns at all. -/
theorem wide_raster_is_refused :
    let t : Transform Float := .scale 1e-10 1
    let far : Transform Float := .scale 1e-19 1
    t.Finite ∧ t.Invertible ∧ t.isIdentity = false ∧
      t.worldOf? 0 0 = some (0, 0) ∧ t.worldOf? 1 0 = some (10000000000, 0) ∧
      (∀ w, ((takeDefaultBounds w (blank ⟨0, 0, 2, 1⟩)).run.run (painter t)).1 =
        .error (.nonInvertible "dest")) ∧
      far.Finite ∧ far.Invertible ∧
      ((takeDefaultBounds .checked (blank ⟨-1, 0, 3, 1⟩)).run.run (painter far)).1 =
        .error .stopped ∧
      ((takeDefaultBounds .wrapping (blank ⟨-1, 0, 3, 1⟩)).run.run (painter far)).1 = .ok () ∧
      ((takeDefaultBounds .wrapping (blank ⟨-1, 0, 3, 1⟩)).run.run (painter far)).2.bounds =
        some ⟨-2 ^ 63, 0, 0, 1⟩ := by
  refine ⟨?_, ⟨0, 0, ?_⟩, ?_, ?_, ?_, ?_, ?_, ⟨0, 0, ?_⟩, ?_, ?_, ?_⟩
  · constructor <;> decide +kernel
  · decide +kernel
  · decide +kernel
  · decide +kernel
  · decide +kernel
  · rintro (_ | _) <;> decide +kernel
  · constructor <;> decide +kernel
  · decide +kernel
  · decide +kernel
  · decide +kernel
  · decide +kernel

end Session

end RasterScript
