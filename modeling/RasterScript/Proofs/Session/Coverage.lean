import Mathlib.Data.List.Nodup
import RasterScript.Proofs.Number.Integers
import RasterScript.Proofs.Session.Course

/-! What a sweep covers when no bounds were set. The first sweep that finds all destinations bound
takes the extent of the first one as bounds, and they stay: a sweep after the first destination was
bound anew covers the pixels of the new raster that lie in the old extent. -/
namespace RasterScript

/-! ### Pixels and their positions -/

namespace Extent

/-- All coordinates are doubles. -/
def Exact (e : Extent) : Prop :=
  ∀ x y, e.contains x y → x.natAbs ≤ 2 ^ 53 ∧ y.natAbs ≤ 2 ^ 53

end Extent

namespace Transform

private theorem pixel?_ofInt {n : Int} (h : n.natAbs ≤ 2 ^ 53) :
    pixel? (Float.ofInt n) = some n := by
  show (Number.nearestInt? (Float.ofInt n)).map Number.saturate = some n
  rw [Number.nearestInt?_ofInt h, Option.map_some, Number.saturate,
    show Number.twoTo 63 = 2 ^ 63 from rfl]
  congr 1
  omega

theorem pixelAt?_ofInt {x y : Int} (hx : x.natAbs ≤ 2 ^ 53) (hy : y.natAbs ≤ 2 ^ 53) :
    pixelAt? (Float.ofInt x, Float.ofInt y) = some (x, y) := by
  rw [pixelAt?]
  simp only [pixel?_ofInt hx, pixel?_ofInt hy]
  rfl

end Transform

namespace Session

/-- A visit of a pixel at its own place. -/
def visitOf (pixel : Int × Int) : Visit :=
  ⟨pixel.1, pixel.2, Float.ofInt pixel.1, Float.ofInt pixel.2⟩

/-- With no transform, the pixels inside the bounds are visited at their own places. -/
theorem visits_identity {grid : Extent} (hgrid : grid.Exact) (bounds : Extent) :
    visits .identity grid bounds =
      (grid.positions.filter fun p => bounds.contains p.1 p.2).map visitOf := by
  rw [visits, ← List.filterMap_eq_map, List.filterMap_filter]
  apply List.filterMap_congr
  rintro ⟨x, y⟩ hmem
  obtain ⟨hx, hy⟩ := hgrid x y (Extent.mem_positions.mp hmem)
  show (Transform.sweepPosition? .identity bounds x y).map _ = _
  have hposition : Transform.sweepPosition? .identity bounds x y =
      if bounds.contains x y then some (Float.ofInt x, Float.ofInt y) else none := by
    show (Transform.pixelAt? (Float.ofInt x, Float.ofInt y) >>= _) = _
    rw [Transform.pixelAt?_ofInt hx hy]
    rfl
  rw [hposition]
  cases bounds.contains x y <;> rfl

/-! ### Writes -/

/-- The values of pixels, written to rasters in turn. -/
def writesOf (rasters : List Nat) (pixels : List (Int × Int)) (values : List (List Float)) :
    List Write :=
  (pixels.zip values).flatMap fun (pixel, vs) =>
    (rasters.zip vs).map fun (raster, value) => ⟨raster, pixel.1, pixel.2, 0, value, true⟩

/-- Destinations that are bound to rasters with no transform. -/
def plainly (rasters : List Nat) : List (Option BoundRaster) :=
  rasters.map fun raster => some ⟨raster, .identity⟩

open Output (ofVisit ofVisits ofVisitFrom noted?)

section Writes

variable {s : Session} {rasters : List Nat} (hdest : s.destinations = plainly rasters)
include hdest

private theorem noted?_plainly {pixel : Int × Int} (hx : pixel.1.natAbs ≤ 2 ^ 53)
    (hy : pixel.2.natAbs ≤ 2 ^ 53) {i raster : Nat} (hraster : rasters[i]? = some raster)
    (value : Float) :
    noted? s ⟨visitOf pixel, i, value⟩ = some ⟨raster, pixel.1, pixel.2, 0, value, true⟩ := by
  have hbound : boundAt s.destinations (s.code.destinationName i) i = .ok ⟨raster, .identity⟩ := by
    rw [boundAt, hdest, plainly, List.getElem?_map, hraster]
    rfl
  have hpixel : pixelOf (s.code.destinationName i) ⟨raster, .identity⟩ (Float.ofInt pixel.1)
      (Float.ofInt pixel.2) = .ok pixel := by
    have himage : Transform.imagePixel? .identity (Float.ofInt pixel.1) (Float.ofInt pixel.2) =
        some pixel := Transform.pixelAt?_ofInt hx hy
    simp only [pixelOf, himage]
  have hplace : Output.place s ⟨visitOf pixel, i, value⟩ = .ok (raster, pixel.1, pixel.2) := by
    rw [Output.place, hbound]
    by_cases hi : i = 0
    · simp only [bind, Except.bind, if_pos hi]
      rfl
    · simp only [bind, Except.bind, if_neg hi, visitOf, hpixel]
      rfl
  rw [noted?, hplace]
  rfl

private theorem noted?_ofVisitFrom {pixel : Int × Int} (hx : pixel.1.natAbs ≤ 2 ^ 53)
    (hy : pixel.2.natAbs ≤ 2 ^ 53) (values : List Float) (i : Nat)
    (hlength : i + values.length = rasters.length) :
    (ofVisitFrom (visitOf pixel) i values).filterMap (noted? s) =
      ((rasters.drop i).zip values).map fun (raster, value) =>
        ⟨raster, pixel.1, pixel.2, 0, value, true⟩ := by
  induction values generalizing i with
  | nil => rw [List.zip_nil_right]; rfl
  | cons value values ih =>
    have hi : i < rasters.length := by
      rw [List.length_cons] at hlength
      omega
    rw [Progression.ofVisitFrom_cons, List.filterMap_cons_some
      (noted?_plainly hdest hx hy (List.getElem?_eq_getElem hi) value), ih (i + 1) (by
        rw [List.length_cons] at hlength
        omega), List.drop_eq_getElem_cons hi]
    rfl

private theorem noted?_ofVisits {pixels : List (Int × Int)} {values : List (List Float)}
    (hexact : ∀ pixel ∈ pixels, pixel.1.natAbs ≤ 2 ^ 53 ∧ pixel.2.natAbs ≤ 2 ^ 53)
    (hlength : ∀ vs ∈ values, vs.length = rasters.length) :
    (ofVisits (pixels.map visitOf) values).filterMap (noted? s) =
      writesOf rasters pixels values := by
  induction pixels generalizing values with
  | nil => rfl
  | cons pixel pixels ih =>
    cases values with
    | nil => rfl
    | cons vs values =>
      obtain ⟨hpixel, hpixels⟩ := List.forall_mem_cons.mp hexact
      obtain ⟨hvs, hvalues⟩ := List.forall_mem_cons.mp hlength
      show (ofVisitFrom (visitOf pixel) 0 vs ++ ofVisits (pixels.map visitOf) values).filterMap _ = _
      rw [List.filterMap_append, ih hpixels hvalues,
        noted?_ofVisitFrom hdest hpixel.1 hpixel.2 vs 0 ((Nat.zero_add _).trans hvs)]
      rfl

end Writes

/-! ### Bounds that were not set -/

/-- The extent of the first destination, if all destinations are bound. -/
def ready? (s : Session) (g : Gallery) : Option Extent :=
  if s.missingDestination?.isNone then
    s.destinations.head?.join.map fun first => extentOf g first.raster
  else none

section Bounds

variable {limit : Nat} {every : Nat → Nat} {s : Session} {g : Gallery}

/-- No destination has a transform. -/
def Untransformed (s : Session) : Prop :=
  ∀ bound, some bound ∈ s.destinations → bound.transform = .identity

private theorem ready?_of_missing (h : s.missingDestination? = none) :
    s.ready? g = s.destinations.head?.join.map fun first => extentOf g first.raster := by
  rw [ready?, h]
  rfl

private theorem ready?_eq_none {image : String} (h : s.missingDestination? = some image) :
    s.ready? g = none := by
  rw [ready?, h]
  rfl

private theorem defaultBounds_eq (hs : s.Untransformed) {first : BoundRaster}
    {rest : List (Option BoundRaster)} (hdest : s.destinations = some first :: rest) :
    s.defaultBounds g = .ok (extentOf g first.raster) := by
  have hidentity : first.transform.isIdentity = true := by
    rw [hs first (hdest ▸ List.mem_cons_self)]
    rfl
  have hfirst : firstBound? s.destinations = some (0, first) := by
    rw [hdest]
    rfl
  simp only [defaultBounds, hfirst, if_pos hidentity]

/-- A sweep takes the bounds that there are, or the extent of the first destination. -/
theorem prepare_eq (hs : s.Untransformed) (hmissing : s.missingDestination? = none) :
    s.prepare g =
      (s.bounds <|> s.ready? g).elim (.error .boundsNotSet) fun b => .ok (s.setBounds b, b) := by
  rw [prepare, hmissing]
  cases hb : s.bounds with
  | some b => rfl
  | none =>
    rw [ready?_of_missing hmissing]
    cases hdest : s.destinations with
    | nil =>
      have hdefault : s.defaultBounds g = .error .boundsNotSet := by
        rw [defaultBounds, hdest]
        rfl
      simp only [bind, Except.bind, hdefault]
      rfl
    | cons slot rest =>
      have hbound := missingDestination?_eq_none.mp hmissing slot (hdest ▸ List.mem_cons_self)
      obtain ⟨first, rfl⟩ := Option.isSome_iff_exists.mp hbound
      simp only [bind, Except.bind, defaultBounds_eq hs hdest]
      rfl

theorem prepare_ok {t : Session} {b : Extent} (h : s.prepare g = .ok (t, b)) :
    s.missingDestination? = none ∧ t = s.setBounds b := by
  cases hmissing : s.missingDestination? with
  | some image =>
    rw [prepare, hmissing] at h
    cases h
  | none =>
    refine ⟨rfl, ?_⟩
    rw [prepare, hmissing] at h
    cases hb : s.bounds with
    | some b =>
      rw [hb] at h
      cases h
      rfl
    | none =>
      rw [hb] at h
      cases hdefault : s.defaultBounds g with
      | error f =>
        simp only [bind, Except.bind, hdefault] at h
        cases h
      | ok b =>
        simp only [bind, Except.bind, hdefault] at h
        cases h
        rfl

theorem sweep_of_error {f : Failure} (h : s.prepare g = .error f) :
    s.sweep limit every g = ⟨s, g, [], [], .error (.failed f)⟩ := by
  rw [sweep, h]

/-- The bounds that a sweep leaves behind, whether it comes to its end or not. -/
theorem bounds_sweep (hs : s.Untransformed) :
    (s.sweep limit every g).session.bounds = (s.bounds <|> s.ready? g) := by
  cases hmissing : s.missingDestination? with
  | some image =>
    have hprepare : s.prepare g = .error (.unboundImage image) := by
      rw [prepare, hmissing]
      rfl
    rw [ready?_eq_none hmissing, sweep_of_error hprepare]
    cases s.bounds <;> rfl
  | none =>
    have hprepare := @prepare_eq s g hs hmissing
    cases hb : s.bounds <|> s.ready? g with
    | some b =>
      rw [hb] at hprepare
      exact (sweep_alike hprepare).bounds
    | none =>
      rw [hb] at hprepare
      rw [sweep_of_error hprepare]
      cases hbounds : s.bounds with
      | none => rfl
      | some b =>
        rw [hbounds] at hb
        cases hb

/-- Neither bindings nor extents depend on how a sweep ends. -/
theorem sweep_keeps (limit : Nat) (every : Nat → Nat) (s : Session) (g : Gallery) :
    (s.sweep limit every g).session.code = s.code ∧
      (s.sweep limit every g).session.destinations = s.destinations ∧
      ∀ raster, extentOf (s.sweep limit every g).gallery raster = extentOf g raster := by
  cases hprepare : s.prepare g with
  | error f =>
    rw [sweep_of_error hprepare]
    exact ⟨rfl, rfl, fun _ => rfl⟩
  | ok prepared =>
    obtain ⟨t, b⟩ := prepared
    have halike := @sweep_alike limit every s t g b hprepare
    obtain ⟨-, rfl⟩ := prepare_ok hprepare
    exact ⟨halike.code, halike.destinations, halike.extents⟩

end Bounds

/-! ### Operations -/

/-- What can be done with a session that sweeps, apart from setting bounds. Destinations have no
transforms. -/
inductive Operation where
  | bindSource (image : String) (bound : BoundRaster)
  | bindDestination (image : String) (raster : Nat)
  | sweep (every : Nat → Nat)

namespace Operation

/-- An operation that fails to bind changes nothing. -/
def run (limit : Nat) (op : Operation) (s : Session) (g : Gallery) : Session × Gallery :=
  match op with
  | bindSource image bound => ((s.bindSource image bound).toOption.getD s, g)
  | bindDestination image raster =>
    ((s.bindDestination image ⟨raster, .identity⟩).toOption.getD s, g)
  | sweep every => ((s.sweep limit every g).session, (s.sweep limit every g).gallery)

def runAll (limit : Nat) : List Operation → Session → Gallery → Session × Gallery
  | [], s, g => (s, g)
  | op :: ops, s, g => runAll limit ops (op.run limit s g).1 (op.run limit s g).2

/-- What a sweep finds as the extent of the first destination, if all destinations are bound. -/
def found? (op : Operation) (s : Session) (g : Gallery) : Option Extent :=
  match op with
  | sweep _ => s.ready? g
  | _ => none

/-- What the first sweep that finds all destinations bound finds as the extent of the first. -/
def firstFound? (limit : Nat) : List Operation → Session → Gallery → Option Extent
  | [], _, _ => none
  | op :: ops, s, g =>
    op.found? s g <|> firstFound? limit ops (op.run limit s g).1 (op.run limit s g).2

section Runs

variable {limit : Nat} {s : Session} {g : Gallery}

private theorem run_keeps (limit : Nat) (op : Operation) (s : Session) (g : Gallery) :
    (op.run limit s g).1.code = s.code ∧
      (op.run limit s g).1.destinations.length = s.destinations.length ∧
      ∀ raster, extentOf (op.run limit s g).2 raster = extentOf g raster := by
  cases op with
  | bindSource image bound =>
    rw [run, Session.bindSource]
    cases imageIndex s.code.sources image <;> exact ⟨rfl, rfl, fun _ => rfl⟩
  | bindDestination image raster =>
    rw [run, Session.bindDestination]
    cases imageIndex s.code.destinations image with
    | error f => exact ⟨rfl, rfl, fun _ => rfl⟩
    | ok i => exact ⟨rfl, List.length_set .., fun _ => rfl⟩
  | sweep every =>
    obtain ⟨hcode, hdest, hextents⟩ := sweep_keeps limit every s g
    exact ⟨hcode, congrArg List.length hdest, hextents⟩

private theorem run_untransformed (op : Operation) (hs : s.Untransformed) :
    (op.run limit s g).1.Untransformed := by
  cases op with
  | bindSource image bound =>
    simp only [run, Session.bindSource]
    cases imageIndex s.code.sources image <;> exact hs
  | bindDestination image raster =>
    simp only [run, Session.bindDestination]
    cases imageIndex s.code.destinations image with
    | error f => exact hs
    | ok i =>
      intro bound hbound
      obtain hold | hnew := List.mem_or_eq_of_mem_set hbound
      · exact hs bound hold
      · cases hnew
        rfl
  | sweep every =>
    obtain ⟨-, hdest, -⟩ := sweep_keeps limit every s g
    intro bound hbound
    exact hs bound (hdest ▸ hbound)

private theorem bounds_run (op : Operation) (hs : s.Untransformed) :
    (op.run limit s g).1.bounds = (s.bounds <|> op.found? s g) := by
  have hsame : s.bounds = (s.bounds <|> none) := by cases s.bounds <;> rfl
  cases op with
  | bindSource image bound =>
    simp only [run, Session.bindSource]
    cases imageIndex s.code.sources image <;> exact hsame
  | bindDestination image raster =>
    simp only [run, Session.bindDestination]
    cases imageIndex s.code.destinations image <;> exact hsame
  | sweep every => exact bounds_sweep hs

theorem runAll_keeps (limit : Nat) (ops : List Operation) (s : Session) (g : Gallery) :
    (runAll limit ops s g).1.code = s.code ∧
      (runAll limit ops s g).1.destinations.length = s.destinations.length ∧
      ∀ raster, extentOf (runAll limit ops s g).2 raster = extentOf g raster := by
  induction ops generalizing s g with
  | nil => exact ⟨rfl, rfl, fun _ => rfl⟩
  | cons op ops ih =>
    obtain ⟨hcode, hdest, hextents⟩ := run_keeps limit op s g
    obtain ⟨hcode', hdest', hextents'⟩ := ih (op.run limit s g).1 (op.run limit s g).2
    exact ⟨hcode'.trans hcode, hdest'.trans hdest,
      fun raster => (hextents' raster).trans (hextents raster)⟩

/-- The bounds after a row of operations are those of the first sweep that came past the check of
the destinations. -/
theorem bounds_runAll (ops : List Operation) (hs : s.Untransformed) :
    (runAll limit ops s g).1.Untransformed ∧
      (runAll limit ops s g).1.bounds = (s.bounds <|> firstFound? limit ops s g) := by
  induction ops generalizing s g with
  | nil =>
    refine ⟨hs, ?_⟩
    show s.bounds = (s.bounds <|> none)
    cases s.bounds <;> rfl
  | cons op ops ih =>
    obtain ⟨hrest, hbounds⟩ := ih (run_untransformed op hs)
    refine ⟨hrest, ?_⟩
    rw [runAll, hbounds, bounds_run op hs, firstFound?]
    cases s.bounds <;> rfl

end Runs

end Operation

/-! ### Covered pixels -/

private theorem exists_plainly {slots : List (Option BoundRaster)}
    (hbound : ∀ slot ∈ slots, slot.isSome)
    (hplain : ∀ bound, some bound ∈ slots → bound.transform = .identity) :
    ∃ rasters, slots = plainly rasters := by
  induction slots with
  | nil => exact ⟨[], rfl⟩
  | cons slot slots ih =>
    obtain ⟨hslot, hslots⟩ := List.forall_mem_cons.mp hbound
    obtain ⟨⟨raster, transform⟩, rfl⟩ := Option.isSome_iff_exists.mp hslot
    obtain rfl : transform = .identity := hplain _ List.mem_cons_self
    obtain ⟨rasters, rfl⟩ := ih hslots fun bound h => hplain bound (List.mem_cons_of_mem _ h)
    exact ⟨raster :: rasters, rfl⟩

/-- The pixels of a grid that lie inside the bounds, row by row. -/
def covered (grid bounds : Extent) : List (Int × Int) :=
  grid.positions.filter fun p => bounds.contains p.1 p.2

private theorem covered_eq {grid bounds : Extent}
    (h : ∀ x y, grid.contains x y → bounds.contains x y) :
    covered grid bounds = grid.positions := by
  refine List.filter_eq_self.mpr ?_
  rintro ⟨x, y⟩ hmem
  exact h x y (Extent.mem_positions.mp hmem)

section Covered

variable {limit : Nat} {every : Nat → Nat} {s : Session} {g : Gallery}

private theorem plan_plainly {first : Nat} {others : List Nat}
    (hdest : s.destinations = plainly (first :: others)) (b : Extent) :
    s.plan g b = .ok (visits .identity (extentOf g first) b) := by
  have hhead : s.destinations.head? = some (some ⟨first, .identity⟩) := by
    rw [hdest]
    rfl
  rw [plan, hhead]
  simp only []
  rw [if_neg]
  rw [Bool.and_eq_true, not_and]
  intro _ hnone
  cases hnone

/-- As many visits are planned as were counted. -/
theorem taskSize_of_plan {b : Extent} {vs : List Visit} (h : s.plan g b = .ok vs) :
    s.taskSize g b = vs.length := by
  rw [plan] at h
  rw [taskSize]
  split at h
  · simp only [] at h
    split at h
    · cases h
    · cases h
      rw [visits, List.length_filterMap_eq_countP]
      simp only [Option.isSome_map]
  · cases h

/-- A sweep that comes to its end has visited all of its pixels. -/
theorem sweep_completed {t : Session} {b : Extent} {vs : List Visit}
    (hprepare : s.prepare g = .ok (t, b)) (hplan : t.plan g b = .ok vs)
    (hok : (s.sweep limit every g).result = .ok ()) :
    ∃ u q, Alike t g u g ∧ Progression.visitAll limit ⟨u, g, [], 0⟩ vs = (q, .ok ()) ∧
      (s.sweep limit every g).writes = q.writes.reverse ∧
      (s.sweep limit every g).events = Progress.events (every vs.length) vs.length q.done true := by
  have hinit := t.runInit_alike limit g
  rw [sweep, hprepare] at hok ⊢
  simp only [hplan] at hok ⊢
  generalize t.runInit limit g = started at hinit hok ⊢
  obtain ⟨u, result⟩ := started
  cases result with
  | error halt => cases hok
  | ok _ =>
    simp only [] at hok ⊢
    cases hvisits : Progression.visitAll limit ⟨u, g, [], 0⟩ vs with
    | mk q result =>
      rw [hvisits] at hok
      obtain rfl : result = .ok () := hok
      rw [taskSize_of_plan hplan]
      exact ⟨u, q, hinit, hvisits, rfl, rfl⟩

private theorem bounds_of_prepare (hs : s.Untransformed) {t : Session} {b : Extent}
    (h : s.prepare g = .ok (t, b)) : (s.bounds <|> s.ready? g) = some b := by
  rw [prepare_eq hs (prepare_ok h).1] at h
  cases hbounds : s.bounds <|> s.ready? g with
  | none =>
    rw [hbounds] at h
    cases h
  | some b' =>
    rw [hbounds] at h
    cases h
    rfl

/-- A sweep of destinations without transforms that comes to its end writes one value to each of
them at every pixel of the first that lies inside the bounds, and nothing else. -/
theorem sweep_covered (hs : s.Untransformed)
    (hlength : s.destinations.length = s.code.destinations.length)
    (hok : (s.sweep limit every g).result = .ok ()) :
    ∃ first others, s.destinations = plainly (first :: others) ∧
      ((extentOf g first).Exact →
        let pixels := covered (extentOf g first) (s.bounds.getD (extentOf g first))
        (s.sweep limit every g).events =
          Progress.events (every pixels.length) pixels.length pixels.length true ∧
        ∃ values, values.length = pixels.length ∧
          (∀ vs ∈ values, vs.length = (first :: others).length) ∧
          (s.sweep limit every g).writes = writesOf (first :: others) pixels values) := by
  cases hprepare : s.prepare g with
  | error f =>
    rw [sweep_of_error hprepare] at hok
    cases hok
  | ok prepared =>
    obtain ⟨t, b⟩ := prepared
    have hb := bounds_of_prepare hs hprepare
    obtain ⟨hmissing, rfl⟩ := prepare_ok hprepare
    obtain ⟨rasters, hdest⟩ := exists_plainly (missingDestination?_eq_none.mp hmissing) hs
    rw [ready?_of_missing hmissing, hdest] at hb
    cases rasters with
    | nil =>
      -- Without a destination no pixels are known, and the sweep does not start.
      have hplan : (s.setBounds b).plan g b = .error .boundsNotSet := by
        rw [plan, show (s.setBounds b).destinations = [] from hdest]
        rfl
      rw [sweep, hprepare] at hok
      simp only [hplan] at hok
      cases hok
    | cons first others =>
      refine ⟨first, others, hdest, fun hexact => ?_⟩
      have hbounds : s.bounds.getD (extentOf g first) = b := by
        generalize s.bounds = bounds at hb ⊢
        cases bounds <;> exact Option.some.inj hb
      have hplan := @plan_plainly (s.setBounds b) g first others hdest b
      rw [visits_identity hexact] at hplan
      obtain ⟨u, q, halike, hvisits, hwrites, hevents⟩ := sweep_completed hprepare hplan hok
      obtain ⟨hdone, values, hvalues, hcounts, hnoted⟩ := Progression.visitAll_ok hvisits
      have hu : u.destinations = plainly (first :: others) := halike.destinations.trans hdest
      have hcount : u.code.destinations.length = (first :: others).length := by
        rw [halike.code, ← List.length_map (fun raster => some (⟨raster, .identity⟩ : BoundRaster))]
        exact hlength.symm.trans (congrArg List.length hdest)
      have hnear : ∀ pixel ∈ covered (extentOf g first) b,
          pixel.1.natAbs ≤ 2 ^ 53 ∧ pixel.2.natAbs ≤ 2 ^ 53 := fun pixel hpixel =>
        hexact _ _ (Extent.mem_positions.mp (List.mem_of_mem_filter hpixel))
      rw [hbounds]
      refine ⟨?_, values, ?_, fun vs hvs => (hcounts vs hvs).trans hcount, ?_⟩
      · rw [hevents, hdone, List.length_map, Nat.zero_add]
        rfl
      · exact hvalues.trans (List.length_map ..)
      · rw [hwrites, hnoted, List.append_nil, List.reverse_reverse]
        exact noted?_ofVisits hu hnear fun vs hvs => (hcounts vs hvs).trans hcount

end Covered

/-- After any operations that set no bounds, a sweep that comes to its end visits and writes, once
each and row by row, the pixels of the raster that is the first destination by then, as far as they
lie in the extent of the first destination at the first sweep that found all destinations bound. These
are all of its pixels if there was no such sweep before, or if the extent is still the same. -/
theorem sweeps_keep_first_extent (limit : Nat) (every : Nat → Nat) (c : Code) (g : Gallery)
    (ops : List Operation) :
    let s := (Operation.runAll limit ops (start c) g).1
    let now := (Operation.runAll limit ops (start c) g).2
    let found? := Operation.firstFound? limit ops (start c) g
    let r := s.sweep limit every now
    r.result = .ok () → ∃ first others, s.destinations = plainly (first :: others) ∧
      let grid := extentOf now first
      let pixels := covered grid (found?.getD grid)
      pixels.Nodup ∧
      (∀ x y, (x, y) ∈ pixels ↔ grid.contains x y ∧ (found?.getD grid).contains x y) ∧
      ((∀ e, found? = some e → e = grid) → pixels = grid.positions) ∧
      (grid.Exact →
        r.events = Progress.events (every pixels.length) pixels.length pixels.length true ∧
        ∃ values, values.length = pixels.length ∧
          (∀ vs ∈ values, vs.length = (first :: others).length) ∧
          r.writes = writesOf (first :: others) pixels values) := by
  intro s now found? r hok
  have hstart : (start c).Untransformed := fun bound hbound =>
    nomatch List.eq_of_mem_replicate hbound
  obtain ⟨hs, hbounds⟩ := @Operation.bounds_runAll limit (start c) g ops hstart
  obtain ⟨hcode, hcount, -⟩ := Operation.runAll_keeps limit ops (start c) g
  have hlength : s.destinations.length = s.code.destinations.length := by
    rw [show s.code = c from hcode]
    exact hcount.trans List.length_replicate
  obtain ⟨first, others, hdest, hcovered⟩ := sweep_covered hs hlength hok
  have hfound : s.bounds = found? := hbounds
  rw [hfound] at hcovered
  refine ⟨first, others, hdest, (extentOf now first).nodup_positions.filter _, fun x y => ?_,
    fun hsame => covered_eq fun x y hxy => ?_, hcovered⟩
  · rw [covered, List.mem_filter, Extent.mem_positions]
  · cases hcase : found? with
    | none => exact hxy
    | some e =>
      rw [Option.getD_some, hsame e hcase]
      exact hxy

/-- Code that writes one everywhere. -/
def painting : Code where
  sources := []
  destinations := ["dest"]
  imageSlots := []
  pixelSlots := []
  listSlots := []
  init := []
  body := [.write 0 (.const 1)]
  outside := none

/-- A square of two by two pixels and one of the given size, with zeros. -/
def squares (size : Nat) : Gallery :=
  [.ofFunction (.sized 2 2) fun _ _ => 0, .ofFunction (.sized size size) fun _ _ => 0]

/-- One raster is swept, then the destination is bound to another. -/
def rebinding : List Operation :=
  [.bindDestination "dest" 0, .sweep id, .bindDestination "dest" 1]

private theorem destinations_rebinding (g : Gallery) :
    (Operation.runAll 0 rebinding (start painting) g).1.destinations = plainly [1] := by
  let bound : Session := { start painting with destinations := plainly [0] }
  obtain ⟨hcode, hdest, -⟩ := sweep_keeps 0 id bound g
  show (((bound.sweep 0 id g).session.bindDestination "dest" ⟨1, .identity⟩).toOption.getD
    (bound.sweep 0 id g).session).destinations = _
  rw [bindDestination, hcode]
  show (bound.sweep 0 id g).session.destinations.set 0 (some ⟨1, .identity⟩) = _
  rw [hdest]
  rfl

/-- A second raster of the same size is covered. -/
theorem rebinding_covers_equal :
    let s := (Operation.runAll 0 rebinding (start painting) (squares 2)).1
    let now := (Operation.runAll 0 rebinding (start painting) (squares 2)).2
    let r := s.sweep 0 id now
    r.result = .ok () ∧ ∃ values, values.length = 4 ∧
      r.writes = writesOf [1] (Extent.sized 2 2).positions values := by
  intro s now r
  have hok : r.result = .ok () := by decide +kernel
  obtain ⟨first, others, hdest, -, -, hall, hcovered⟩ :=
    sweeps_keep_first_extent 0 id painting (squares 2) rebinding hok
  obtain ⟨hfirst, hothers⟩ := List.cons.inj (hdest.symm.trans (destinations_rebinding _))
  obtain rfl : first = 1 := by cases hfirst; rfl
  obtain rfl : others = [] := List.map_eq_nil_iff.mp hothers
  have hgrid : extentOf now 1 = .sized 2 2 := by decide +kernel
  have hexact : (extentOf now 1).Exact := by
    rw [hgrid]
    intro x y hxy
    obtain ⟨hx, hy⟩ := Extent.contains_iff.mp hxy
    simp only [Extent.sized] at hx hy
    omega
  have hsame : ∀ e, Operation.firstFound? 0 rebinding (start painting) (squares 2) = some e →
      e = extentOf now 1 := by
    have hfound : Operation.firstFound? 0 rebinding (start painting) (squares 2) =
        some (.sized 2 2) := by decide +kernel
    intro e he
    rw [hgrid]
    exact Option.some.inj (he.symm.trans hfound)
  obtain ⟨-, values, hvalues, -, hwrites⟩ := hcovered hexact
  have hpixels := (hall hsame).trans (congrArg Extent.positions hgrid)
  rw [hpixels] at hvalues hwrites
  exact ⟨hok, values, hvalues, hwrites⟩

/-- A larger second raster is covered only as far as the first one reaches. -/
theorem rebinding_misses_pixels :
    let s := (Operation.runAll 0 rebinding (start painting) (squares 3)).1
    let now := (Operation.runAll 0 rebinding (start painting) (squares 3)).2
    let r := s.sweep 0 id now
    s.destinations = plainly [1] ∧ extentOf now 1 = .sized 3 3 ∧ r.result = .ok () ∧
      r.writes = [⟨1, 0, 0, 0, 1, true⟩, ⟨1, 1, 0, 0, 1, true⟩, ⟨1, 0, 1, 0, 1, true⟩,
        ⟨1, 1, 1, 0, 1, true⟩] :=
  ⟨destinations_rebinding _, by decide +kernel, by decide +kernel, by decide +kernel⟩

end Session

end RasterScript
