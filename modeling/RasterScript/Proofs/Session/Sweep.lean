import RasterScript.Proofs.Session.Outputs

/-! A sweep is a row of direct evaluations: it visits the pixels of the first destination row by
row, evaluates each as a direct session does, and writes what it gets. -/
namespace RasterScript

/-! ### Writing the values of a pixel -/

namespace Output

variable {s t : Session}

theorem place_congr (hcode : t.code = s.code) (hdest : t.destinations = s.destinations) :
    place t = place s := by
  funext o
  rw [place, place, hcode, hdest]

theorem write_congr (hcode : t.code = s.code) (hdest : t.destinations = s.destinations) :
    write t = write s := by
  funext g o
  rw [write, write, place_congr hcode hdest, hcode]

theorem writeAll_congr (hcode : t.code = s.code) (hdest : t.destinations = s.destinations) :
    writeAll t = writeAll s := by
  funext g os
  rw [writeAll, writeAll, write_congr hcode hdest]

end Output

namespace Progression

open Output (ofVisitFrom ofVisit writeAll)

/-- What a change of samples comes to: the session stays, and so does the gallery if it fails. -/
inductive Follows (p : Progression) : Except Failure Gallery → Progression × Except Failure Unit →
    Prop where
  | ok {g q} : q.session = p.session → q.gallery = g → Follows p (.ok g) (q, .ok ())
  | error {f q} : q.session = p.session → q.gallery = p.gallery → Follows p (.error f) (q, .error f)

private theorem writePixel_follows (p : Progression) (image : String) (bound : BoundRaster)
    (px py : Int) (x y value : Float) :
    Follows p ((p.gallery.set bound.raster px py 0 value).mapError (.ofRaster image x y))
      (p.writePixel image bound px py x y value) := by
  rw [writePixel, Gallery.set]
  cases p.gallery.index bound.raster px py 0 with
  | ok i => exact .ok rfl rfl
  | error f => exact .error rfl rfl

private theorem writeValue_follows (p : Progression) (v : Visit) (i : Nat) (value : Float) :
    Follows p (Output.write p.session p.gallery ⟨v, i, value⟩) (p.writeValue v i value) := by
  rw [writeValue, Output.write, Output.place]
  cases Session.boundAt p.session.destinations (p.session.code.destinationName i) i with
  | error f => exact .error rfl rfl
  | ok bound =>
    by_cases hi : i = 0
    · simp only [bind, Except.bind, if_pos hi]
      exact writePixel_follows ..
    · simp only [bind, Except.bind, if_neg hi]
      cases Session.pixelOf (p.session.code.destinationName i) bound v.x v.y with
      | error f => exact .error rfl rfl
      | ok pixel => exact writePixel_follows ..

theorem ofVisitFrom_cons (v : Visit) (i : Nat) (value : Float) (values : List Float) :
    ofVisitFrom v i (value :: values) = ⟨v, i, value⟩ :: ofVisitFrom v (i + 1) values := rfl

/-- What the writes of one visit come to: all of them go through, or the first that fails is the
last one tried. -/
inductive Wrote (p : Progression) (os : List Output) : Progression × Except Failure Unit → Prop where
  | ok {q} : q.session = p.session → writeAll p.session p.gallery os = .ok q.gallery →
      Wrote p os (q, .ok ())
  | error {q before o after f} : q.session = p.session → os = before ++ o :: after →
      writeAll p.session p.gallery before = .ok q.gallery →
      o.write p.session q.gallery = .error f → Wrote p os (q, .error f)

theorem writeValues_wrote (p : Progression) (v : Visit) (i : Nat) (values : List Float) :
    Wrote p (ofVisitFrom v i values) (p.writeValues v i values) := by
  induction values generalizing p i with
  | nil => exact .ok rfl rfl
  | cons value values ih =>
    rw [ofVisitFrom_cons, writeValues]
    have hfirst := writeValue_follows p v i value
    generalize hx : Output.write p.session p.gallery ⟨v, i, value⟩ = x at hfirst
    generalize p.writeValue v i value = first at hfirst ⊢
    cases hfirst with
    | @ok g q hs hg =>
      subst hg
      have hrest := ih q (i + 1)
      show Wrote p _ (q.writeValues v (i + 1) values)
      generalize q.writeValues v (i + 1) values = rest at hrest ⊢
      cases hrest with
      | ok hs' hos =>
        rw [hs] at hos hs'
        exact .ok hs' ((Output.writeAll_cons_of_ok hx _).trans hos)
      | @error q' before o after f hs' hsplit hos ho =>
        rw [hs] at hos hs' ho
        rw [hsplit, ← List.cons_append]
        exact .error hs' rfl ((Output.writeAll_cons_of_ok hx _).trans hos) ho
    | error hs hg =>
      refine .error hs (List.nil_append _).symm ?_ (hg.symm ▸ hx)
      rw [hg]
      rfl

end Progression

/-! ### Direct evaluations -/

namespace Session

open Output (ofVisit ofVisits writeAll)

/-- A direct session with the same code, sources and bounds, before its first evaluation. -/
def direct (s : Session) : Session :=
  { start s.code with sources := s.sources, bounds := s.bounds }

/-- A direct session `d` is evaluated at visits in turn, each time on the rasters as they are after
the outputs of the visits before it. -/
inductive Evaluated (limit : Nat) (s : Session) : Session → Gallery → List Visit →
    List (List Float) → Session → Gallery → Prop where
  | nil {d g} : Evaluated limit s d g [] [] d g
  | cons {d g v vs d₁ g₁ visits values d' g'} :
      d.evaluate limit g v.x v.y = (d₁, .ok vs) → writeAll s g (ofVisit v vs) = .ok g₁ →
      Evaluated limit s d₁ g₁ visits values d' g' →
      Evaluated limit s d g (v :: visits) (vs :: values) d' g'

/-- A direct session `d` comes to a halt at a visit: its evaluation fails on the rasters that it
sees, or one of its outputs is refused after those `before` it were written. -/
inductive Stopped (limit : Nat) (s d : Session) (seen : Gallery) (v : Visit) :
    List Output → Gallery → Halt → Prop where
  | evaluation {d' g halt} : d.evaluate limit seen v.x v.y = (d', .error halt) →
      Stopped limit s d seen v [] g halt
  | output {d' g vs before o after f} : d.evaluate limit seen v.x v.y = (d', .ok vs) →
      ofVisit v vs = before ++ o :: after → o.write s g = .error f →
      Stopped limit s d seen v before g (.failed f)

/-- Evaluate visits in turn, on rasters that stay as they are. -/
def evaluateAll (limit : Nat) (d : Session) (g : Gallery) :
    List Visit → Session × Except Halt (List (List Float))
  | [] => (d, .ok [])
  | v :: visits =>
    match d.evaluate limit g v.x v.y with
    | (d, .error halt) => (d, .error halt)
    | (d, .ok vs) =>
      match d.evaluateAll limit g visits with
      | (d, .error halt) => (d, .error halt)
      | (d, .ok values) => (d, .ok (vs :: values))

section Evaluated

variable {limit : Nat} {s d d' d₀ : Session} {g g' : Gallery} {visits : List Visit}
  {values : List (List Float)} {v : Visit} {before : List Output} {halt : Halt}

theorem Evaluated.writeAll_eq (h : Evaluated limit s d g visits values d' g') :
    writeAll s g (ofVisits visits values) = .ok g' := by
  induction h with
  | nil => rfl
  | cons _ hos _ ih =>
    show writeAll s _ (ofVisit _ _ ++ ofVisits _ _) = _
    rw [Output.writeAll_append, hos]
    exact ih

/-- Only what the first evaluation gives is seen of the session at the start. -/
theorem Evaluated.restart (h : Evaluated limit s d g visits values d' g')
    (hd : ∀ x y, d₀.evaluate limit g x y = d.evaluate limit g x y) :
    ∃ d'', Evaluated limit s d₀ g visits values d'' g' ∧
      ∀ x y, d''.evaluate limit g' x y = d'.evaluate limit g' x y := by
  cases h with
  | nil => exact ⟨d₀, .nil, hd⟩
  | cons heval hos hrest => exact ⟨d', .cons ((hd _ _).trans heval) hos hrest, fun _ _ => rfl⟩

theorem Stopped.congr {seen seen' : Gallery} (h : Stopped limit s d seen v before g halt)
    (hd : ∀ x y, d₀.evaluate limit seen' x y = d.evaluate limit seen x y) :
    Stopped limit s d₀ seen' v before g halt := by
  cases h with
  | evaluation heval => exact .evaluation ((hd _ _).trans heval)
  | output heval hsplit ho => exact .output ((hd _ _).trans heval) hsplit ho

private theorem sources_evaluate (limit : Nat) (d : Session) (g : Gallery) (x y : Float) :
    (d.evaluate limit g x y).1.sources = d.sources := by
  have hinit := sources_runInit limit d g
  rw [evaluate_runs]
  split
  · rfl
  · generalize d.runInit limit g = started at hinit ⊢
    obtain ⟨t, result⟩ := started
    cases result with
    | error halt => exact hinit
    | ok _ => exact hinit

/-- Rasters that are read as sources stay as they are if no destination is written to them. -/
theorem Apart.getElem? (h : s.Apart) {os : List Output} (hos : writeAll s g os = .ok g')
    (source : BoundRaster) (hsource : some source ∈ s.sources) :
    g'[source.raster]? = g[source.raster]? :=
  Output.getElem?_writeAll hos fun bound hbound => h source bound hsource hbound

theorem Evaluated.sources (h : Evaluated limit s d g visits values d' g') :
    d'.sources = d.sources := by
  induction h with
  | nil => rfl
  | @cons d g v vs d₁ g₁ visits values d' g' heval _ _ ih =>
    rw [ih]
    have hsources := sources_evaluate limit d g v.x v.y
    rw [heval] at hsources
    exact hsources

theorem Evaluated.evaluateAll_eq (h : Evaluated limit s d g visits values d' g') (hs : s.Apart)
    (hd : d.sources = s.sources) {g₀ : Gallery}
    (hg : ∀ source, some source ∈ s.sources → g[source.raster]? = g₀[source.raster]?) :
    d.evaluateAll limit g₀ visits = (d', .ok values) := by
  induction h with
  | nil => rfl
  | @cons d g v vs d₁ g₁ visits values d' g' heval hos hrest ih =>
    have hsources := sources_evaluate limit d g v.x v.y
    rw [heval] at hsources
    have hrest := ih (hsources.trans hd) fun source hsource =>
      (hs.getElem? hos source hsource).trans (hg source hsource)
    rw [evaluateAll, ← evaluate_congr limit (hd ▸ hg), heval]
    simp only [hrest]

end Evaluated

/-! ### Visits -/

section Visits

variable {limit : Nat} {s : Session}

/-- A session in the middle of a sweep. -/
structure Sweeping (s t : Session) : Prop where
  code : t.code = s.code
  destinations : t.destinations = s.destinations
  initialised : t.initialised

/-- The same session without destinations to write to. -/
def unbound (s t : Session) : Session := { t with destinations := s.direct.destinations }

private theorem evaluate_unbound {t : Session} (h : t.initialised) (g : Gallery) (x y : Float) :
    (unbound s t).evaluate limit g x y =
      (unbound s (t.runPixel limit g x y).1, (t.runPixel limit g x y).2) := by
  have hinit : (unbound s t).initialised := h
  rw [evaluate_runs, if_pos hinit]
  rfl

/-- What a row of visits comes to. -/
inductive Visited (limit : Nat) (s : Session) (p : Progression) (visits : List Visit) :
    Progression × Except Halt Unit → Prop where
  | ok {q values} : Evaluated limit s (unbound s p.session) p.gallery visits values
      (unbound s q.session) q.gallery → Visited limit s p visits (q, .ok ())
  | error {q done v rest values d g before halt} : visits = done ++ v :: rest →
      Evaluated limit s (unbound s p.session) p.gallery done values d g →
      writeAll s g before = .ok q.gallery → Stopped limit s d g v before q.gallery halt →
      Visited limit s p visits (q, .error halt)

private theorem visitAll_visited (visits : List Visit) (p : Progression)
    (h : Sweeping s p.session) : Visited limit s p visits (p.visitAll limit visits) := by
  induction visits generalizing p with
  | nil => exact .ok .nil
  | cons v visits ih =>
    have heval := @evaluate_unbound limit s _ h.initialised p.gallery v.x v.y
    have hsweeping : Sweeping s (p.session.runPixel limit p.gallery v.x v.y).1 :=
      ⟨h.code, h.destinations, h.initialised⟩
    rw [Progression.visitAll, Progression.visit]
    generalize p.session.runPixel limit p.gallery v.x v.y = evaluated at heval hsweeping ⊢
    obtain ⟨t, result⟩ := evaluated
    cases result with
    | error halt => exact .error (List.nil_append _).symm .nil rfl (.evaluation heval)
    | ok vs =>
      have hwrote := ({ p with session := t } : Progression).writeValues_wrote v 0 vs
      simp only []
      generalize ({ p with session := t } : Progression).writeValues v 0 vs = wrote at hwrote ⊢
      cases hwrote with
      | @ok q hs hos =>
        rw [Output.writeAll_congr hsweeping.code hsweeping.destinations] at hos
        have hrest := ih { q with done := q.done + 1 } (hs.symm ▸ hsweeping)
        simp only []
        generalize ({ q with done := q.done + 1 } : Progression).visitAll limit visits = after
          at hrest ⊢
        cases hrest with
        | ok hvisits =>
          rw [hs] at hvisits
          exact .ok (.cons heval hos hvisits)
        | error hsplit hvisits hbefore hstop =>
          rw [hs] at hvisits
          exact .error (congrArg (List.cons v) hsplit) (.cons heval hos hvisits) hbefore hstop
      | error hs hsplit hos ho =>
        rw [Output.writeAll_congr hsweeping.code hsweeping.destinations] at hos
        rw [Output.write_congr hsweeping.code hsweeping.destinations] at ho
        exact .error (List.nil_append _).symm .nil hos (.output heval hsplit ho)

end Visits

/-! ### Sweeps -/

/-- The pixels of a grid whose world positions round to pixels inside the bounds, row by row. -/
def swept (t : Transform Float) (grid bounds : Extent) : List Visit :=
  (List.range grid.height).flatMap fun (row : Nat) =>
    (List.range grid.width).filterMap fun (column : Nat) => do
      let (x, y) ← t.worldOf? (grid.minX + column) (grid.minY + row)
      let worldX ← Transform.pixel? x
      let worldY ← Transform.pixel? y
      if bounds.contains worldX worldY then some ⟨grid.minX + column, grid.minY + row, x, y⟩
      else none

private theorem visits_eq_swept (t : Transform Float) (grid bounds : Extent) :
    visits t grid bounds = swept t grid bounds := by
  rw [visits, swept, Extent.positions, List.filterMap_flatMap]
  refine congrArg (List.flatMap · _) (funext fun row => ?_)
  rw [List.filterMap_map]
  refine congrArg (List.filterMap · _) (funext fun column => ?_)
  simp only [Function.comp_apply, Transform.sweepPosition?, Transform.pixelAt?]
  cases t.worldOf? (grid.minX + column) (grid.minY + row) with
  | none => rfl
  | some p =>
    cases hx : Transform.pixel? p.1 with
    | none => simp [hx]
    | some worldX =>
      cases hy : Transform.pixel? p.2 with
      | none => simp [hx, hy]
      | some worldY =>
        cases hin : bounds.contains worldX worldY <;> simp [hx, hy, hin]

/-- A sweep comes past the `init` code: all destinations are bound, the first has an inverse
transform unless it is empty, and the code ends. -/
structure Starts (limit : Nat) (s : Session) (g : Gallery) (first : BoundRaster) : Prop where
  head : s.destinations.head? = some (some first)
  bound : ∀ slot ∈ s.destinations, slot.isSome
  inverse : (extentOf g first.raster).isEmpty ∨ (first.transform.worldOf?
    (extentOf g first.raster).minX (extentOf g first.raster).minY).isSome
  init : (s.runInit limit g).2 = .ok ()

section Sweeps

variable {limit : Nat} {every : Nat → Nat} {s : Session} {g : Gallery} {B : Extent}
  {first : BoundRaster}

private theorem setBounds_eq (hB : s.bounds = some B) : s.setBounds B = s := by
  rw [setBounds, ← hB]

theorem missingDestination?_eq_none :
    s.missingDestination? = none ↔ ∀ slot ∈ s.destinations, slot.isSome := by
  simp [missingDestination?, List.findIdx?_eq_none_iff]

theorem prepare_eq_ok (hB : s.bounds = some B) (hbound : ∀ slot ∈ s.destinations, slot.isSome) :
    s.prepare g = .ok (s, B) := by
  rw [prepare, missingDestination?_eq_none.mpr hbound, hB]
  exact congrArg Except.ok (Prod.ext (setBounds_eq hB) rfl)

theorem Starts.plan_eq (h : s.Starts limit g first) :
    s.plan g B = .ok (swept first.transform (extentOf g first.raster) B) := by
  rw [plan, h.head]
  simp only []
  rw [visits_eq_swept, if_neg]
  rw [Bool.and_eq_true, not_and, Bool.not_eq_true, Option.isNone_eq_false_iff]
  intro hempty
  exact h.inverse.resolve_left (by simpa using hempty)

theorem Starts.sweeping (h : s.Starts limit g first) : Sweeping s (s.runInit limit g).1 := by
  have hinit := h.init
  simp only [runInit, initialise] at hinit ⊢
  split at hinit
  · exact ⟨rfl, rfl, rfl⟩
  · cases hinit

/-- The `init` code does the same in a direct session. -/
theorem Starts.runInit_direct (h : s.Starts limit g first) :
    s.direct.runInit limit g = (unbound s (s.runInit limit g).1, .ok ()) := by
  have hinit := h.init
  have hrun : Machine.run limit s.direct.code (s.direct.environment g 0 0)
      (List.replicate s.direct.code.imageSlots.length 0) s.direct.code.init =
      Machine.run limit s.code (s.environment g 0 0)
        (List.replicate s.code.imageSlots.length 0) s.code.init := rfl
  simp only [runInit, initialise, hrun] at hinit ⊢
  split at hinit
  · rfl
  · cases hinit

theorem Starts.evaluate_direct (h : s.Starts limit g first) (x y : Float) :
    s.direct.evaluate limit g x y =
      (unbound s (s.runInit limit g).1).evaluate limit g x y := by
  rw [evaluate_unbound h.sweeping.initialised, evaluate_runs, h.runInit_direct]
  rfl

theorem Starts.sweep_eq (h : s.Starts limit g first) (hB : s.bounds = some B) :
    ∃ p result, Progression.visitAll limit ⟨(s.runInit limit g).1, g, [], 0⟩
        (swept first.transform (extentOf g first.raster) B) = (p, result) ∧
      (s.sweep limit every g).gallery = p.gallery ∧
      (s.sweep limit every g).result = result := by
  have hinit := h.init
  simp only [sweep, prepare_eq_ok hB h.bound, h.plan_eq]
  generalize s.runInit limit g = started at hinit ⊢
  obtain ⟨t, result⟩ := started
  obtain rfl : result = .ok () := hinit
  exact ⟨_, _, rfl, rfl, rfl⟩

private theorem prepare_eq_error (h : ¬∀ slot ∈ s.destinations, slot.isSome) :
    ∃ f, s.prepare g = .error f := by
  rw [← missingDestination?_eq_none] at h
  obtain ⟨image, himage⟩ := Option.ne_none_iff_exists'.mp h
  rw [prepare, himage]
  exact ⟨_, rfl⟩

private theorem plan_eq_ok {visits : List Visit} (h : s.plan g B = .ok visits) :
    ∃ first, s.destinations.head? = some (some first) ∧
      ((extentOf g first.raster).isEmpty ∨ (first.transform.worldOf?
        (extentOf g first.raster).minX (extentOf g first.raster).minY).isSome) := by
  rw [plan] at h
  split at h
  · next first hfirst =>
    refine ⟨first, hfirst, ?_⟩
    simp only [] at h
    split at h
    · cases h
    · next hinverse =>
      rw [Bool.and_eq_true, not_and, Bool.not_eq_true, Option.isNone_eq_false_iff] at hinverse
      by_cases hempty : (extentOf g first.raster).isEmpty
      · exact .inl hempty
      · exact .inr (hinverse (by simpa using hempty))
  · cases h

/-- A sweep that does not come past the `init` code fails and changes no raster. -/
theorem starts_or_unchanged (limit : Nat) (every : Nat → Nat) (g : Gallery)
    (hB : s.bounds = some B) :
    (∃ first, s.Starts limit g first) ∨
      (s.sweep limit every g).gallery = g ∧
        ∃ halt, (s.sweep limit every g).result = .error halt := by
  by_cases hbound : ∀ slot ∈ s.destinations, slot.isSome
  · cases hplan : s.plan g B with
    | error f =>
      simp only [sweep, prepare_eq_ok hB hbound, hplan]
      exact .inr ⟨trivial, _, rfl⟩
    | ok visits =>
      obtain ⟨first, hfirst, hinverse⟩ := plan_eq_ok hplan
      rcases hinit : s.runInit limit g with ⟨t, halt | _⟩
      · simp only [sweep, prepare_eq_ok hB hbound, hplan, hinit]
        exact .inr ⟨trivial, _, rfl⟩
      · exact .inl ⟨first, hfirst, hbound, hinverse, by rw [hinit]⟩
  · obtain ⟨f, hf⟩ := @prepare_eq_error s g hbound
    simp only [sweep, hf]
    exact .inr ⟨trivial, _, rfl⟩

/-- A sweep that comes to its end is a row of direct evaluations. -/
theorem Starts.completed (h : s.Starts limit g first) (hB : s.bounds = some B)
    (hok : (s.sweep limit every g).result = .ok ()) :
    ∃ values d, Evaluated limit s s.direct g (swept first.transform (extentOf g first.raster) B)
      values d (s.sweep limit every g).gallery := by
  obtain ⟨p, result, hvisits, hgallery, hresult⟩ := @Starts.sweep_eq limit every s g B first h hB
  have hvisited := @visitAll_visited limit s (swept first.transform (extentOf g first.raster) B)
    ⟨(s.runInit limit g).1, g, [], 0⟩ h.sweeping
  rw [hvisits, ← hresult, hok] at hvisited
  rw [hgallery]
  cases hvisited with
  | ok hevaluated =>
    obtain ⟨d, hdirect, -⟩ := hevaluated.restart h.evaluate_direct
    exact ⟨_, d, hdirect⟩

/-- A sweep that fails after the `init` code is a row of direct evaluations up to the failure. -/
theorem Starts.failed (h : s.Starts limit g first) (hB : s.bounds = some B) {halt : Halt}
    (herror : (s.sweep limit every g).result = .error halt) :
    ∃ done v rest values d g₁ before,
      swept first.transform (extentOf g first.raster) B = done ++ v :: rest ∧
      Evaluated limit s s.direct g done values d g₁ ∧
      writeAll s g₁ before = .ok (s.sweep limit every g).gallery ∧
      Stopped limit s d g₁ v before (s.sweep limit every g).gallery halt := by
  obtain ⟨p, result, hvisits, hgallery, hresult⟩ := @Starts.sweep_eq limit every s g B first h hB
  have hvisited := @visitAll_visited limit s (swept first.transform (extentOf g first.raster) B)
    ⟨(s.runInit limit g).1, g, [], 0⟩ h.sweeping
  rw [hvisits, ← hresult, herror] at hvisited
  rw [hgallery]
  cases hvisited with
  | error hsplit hevaluated hbefore hstopped =>
    obtain ⟨d, hdirect, hd⟩ := hevaluated.restart h.evaluate_direct
    exact ⟨_, _, _, _, d, _, _, hsplit, hdirect, hbefore, hstopped.congr hd⟩

end Sweeps

/-- With bounds set, a sweep is the row of direct evaluations at the pixels `P`, whatever was run
before. At its end the rasters hold the values of a fresh direct session, written in turn, and no
other sample has changed. If it fails after the `init` code, they hold a first part of these values,
and the failure is the first one of an evaluation or an output. Evaluations see the rasters as they
are by then, which makes no difference if no destination is written to a raster that is read. -/
theorem sweep_is_direct (limit : Nat) (every : Nat → Nat) (s : Session) (g : Gallery) (B : Extent)
    (hB : s.bounds = some B) :
    let r := s.sweep limit every g
    let P (first : BoundRaster) := swept first.transform (extentOf g first.raster) B
    (r.result = .ok () → ∃ first values d, s.Starts limit g first ∧
      Evaluated limit s s.direct g (P first) values d r.gallery ∧
      writeAll s g (ofVisits (P first) values) = .ok r.gallery ∧
      (∀ raster x y band, r.gallery.sample raster x y band =
        (Output.latest? s (ofVisits (P first) values) raster x y band).elim
          (g.sample raster x y band) .ok) ∧
      (s.Apart → s.direct.evaluateAll limit g (P first) = (d, .ok values))) ∧
    (∀ halt first, r.result = .error halt → s.Starts limit g first →
      ∃ done v rest values d g₁ before, P first = done ++ v :: rest ∧
        Evaluated limit s s.direct g done values d g₁ ∧
        writeAll s g (ofVisits done values ++ before) = .ok r.gallery ∧
        Stopped limit s d g₁ v before r.gallery halt ∧
        (∀ raster x y band, r.gallery.sample raster x y band =
          (Output.latest? s (ofVisits done values ++ before) raster x y band).elim
            (g.sample raster x y band) .ok) ∧
        (s.Apart → s.direct.evaluateAll limit g done = (d, .ok values) ∧
          Stopped limit s d g v before r.gallery halt)) ∧
    ((∀ first, ¬s.Starts limit g first) → r.gallery = g ∧ ∃ halt, r.result = .error halt) := by
  intro r P
  have hstart := starts_or_unchanged limit every g hB
  refine ⟨fun hok => ?_, fun halt first herror hstarts => ?_, fun hno => ?_⟩
  · obtain ⟨first, hstarts⟩ | ⟨-, halt, hhalt⟩ := hstart
    · obtain ⟨values, d, hevaluated⟩ := hstarts.completed hB hok
      have hwritten := hevaluated.writeAll_eq
      exact ⟨first, values, d, hstarts, hevaluated, hwritten, Output.sample_writeAll hwritten,
        fun hs => hevaluated.evaluateAll_eq hs rfl fun _ _ => rfl⟩
    · rw [hok] at hhalt
      cases hhalt
  · obtain ⟨done, v, rest, values, d, g₁, before, hsplit, hevaluated, hbefore, hstopped⟩ :=
      hstarts.failed hB herror
    have hdone := hevaluated.writeAll_eq
    have hwritten : writeAll s g (ofVisits done values ++ before) = .ok r.gallery := by
      rw [Output.writeAll_append, hdone]
      exact hbefore
    refine ⟨done, v, rest, values, d, g₁, before, hsplit, hevaluated, hwritten, hstopped,
      Output.sample_writeAll hwritten, fun hs => ⟨?_, hstopped.congr fun x y => ?_⟩⟩
    · exact hevaluated.evaluateAll_eq hs rfl fun _ _ => rfl
    · have hsources : d.sources = s.sources := hevaluated.sources
      exact (evaluate_congr limit (hsources ▸ hs.getElem? hdone) x y).symm
  · exact hstart.resolve_left fun ⟨first, hfirst⟩ => hno first hfirst

/-- Code that numbers the pixels from 6 on. -/
def numbering : Code where
  sources := []
  destinations := ["dest", "shifted"]
  imageSlots := ["count"]
  pixelSlots := []
  listSlots := []
  init := [.store (.image 0) (.const 5)]
  body :=
    [.store (.image 0) (.binary .add (.load (.image 0)) (.const 1)),
      .write 0 (.load (.image 0)), .write 1 (.load (.image 0))]
  outside := none

/-- A session that has run before. Its second destination lies one pixel to the right. -/
def numberingTwo : Session :=
  { start numbering with
    destinations := [some ⟨0, .identity⟩, some ⟨1, .translate 1 0⟩]
    bounds := some (.sized 2 1)
    imageValues := [40]
    initialised := true }

/-- A row of two pixels and one of the given width, with zeros. -/
def rows (width : Nat) : Gallery :=
  [.ofFunction (.sized 2 1) fun _ _ => 0, .ofFunction (.sized width 1) fun _ _ => 0]

/-- Three pixels are enough for the second destination, two are not. -/
theorem numberingTwo_sweeps :
    ((numberingTwo.sweep 0 id (rows 3)).result = .ok () ∧
      ∃ values d, numberingTwo.direct.evaluateAll 0 (rows 3)
          (swept .identity (.sized 2 1) (.sized 2 1)) = (d, .ok values) ∧
        writeAll numberingTwo (rows 3)
            (ofVisits (swept .identity (.sized 2 1) (.sized 2 1)) values) =
          .ok (numberingTwo.sweep 0 id (rows 3)).gallery) ∧
    ((numberingTwo.sweep 0 id (rows 2)).result = .error (.failed (.outOfBounds "shifted" 1 0)) ∧
      ∃ done v rest values d, swept .identity (.sized 2 1) (.sized 2 1) = done ++ v :: rest ∧
        numberingTwo.direct.evaluateAll 0 (rows 2) done = (d, .ok values)) := by
  have happart : numberingTwo.Apart := fun _ _ hsource _ => nomatch hsource
  have hok : (numberingTwo.sweep 0 id (rows 3)).result = .ok () := by decide +kernel
  have herror : (numberingTwo.sweep 0 id (rows 2)).result =
      .error (.failed (.outOfBounds "shifted" 1 0)) := by decide +kernel
  obtain ⟨first, values, d, hstarts, -, hwritten, -, hdirect⟩ :=
    (sweep_is_direct 0 id numberingTwo (rows 3) (.sized 2 1) rfl).1 hok
  obtain rfl : ⟨0, .identity⟩ = first := Option.some.inj (Option.some.inj hstarts.head)
  refine ⟨⟨hok, values, d, hdirect happart, hwritten⟩, herror, ?_⟩
  have hstarts : numberingTwo.Starts 0 (rows 2) ⟨0, .identity⟩ :=
    ⟨rfl, by decide, .inr (by decide +kernel), by decide +kernel⟩
  obtain ⟨done, v, rest, values, d, _, _, hsplit, -, -, -, -, hdirect⟩ :=
    (sweep_is_direct 0 id numberingTwo (rows 2) (.sized 2 1) rfl).2.1 _ _ herror hstarts
  exact ⟨done, v, rest, values, d, hsplit, (hdirect happart).1⟩

end Session

end RasterScript
