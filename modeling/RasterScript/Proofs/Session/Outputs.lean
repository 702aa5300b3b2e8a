import Mathlib.Data.List.Induction
import RasterScript.Proofs.Session.Samples
import RasterScript.Session.Sweep

/-! The values that a sweep writes, where they go, and what they leave in the rasters. -/
namespace RasterScript

/-- The value of a destination at a visited pixel. -/
structure Output where
  visit : Visit
  /-- The number of the destination. -/
  image : Nat
  value : Float

namespace Output

/-- The raster and the pixel that an output goes to. The first destination takes it at the visited
pixel itself, the others where their own transforms map the world position. -/
def place (s : Session) (o : Output) : Except Failure (Nat × Int × Int) := do
  let image := s.code.destinationName o.image
  let bound ← Session.boundAt s.destinations image o.image
  if o.image = 0 then return (bound.raster, o.visit.px, o.visit.py)
  else
    let (px, py) ← Session.pixelOf image bound o.visit.x o.visit.y
    return (bound.raster, px, py)

/-- Outputs go to band 0. -/
def write (s : Session) (g : Gallery) (o : Output) : Except Failure Gallery := do
  let (raster, px, py) ← o.place s
  (g.set raster px py 0 o.value).mapError
    (.ofRaster (s.code.destinationName o.image) o.visit.x o.visit.y)

/-- Write outputs in turn, up to the first that fails. -/
def writeAll (s : Session) (g : Gallery) (os : List Output) : Except Failure Gallery :=
  os.foldlM (write s) g

/-- The outputs of a visit from the given destination on. -/
def ofVisitFrom (v : Visit) (first : Nat) (values : List Float) : List Output :=
  (values.zipIdx first).map fun (value, i) => ⟨v, i, value⟩

/-- The outputs of a visit, destination by destination. -/
def ofVisit (v : Visit) (values : List Float) : List Output := ofVisitFrom v 0 values

/-- The outputs of visits, one visit after the other. -/
def ofVisits (visits : List Visit) (values : List (List Float)) : List Output :=
  (visits.zip values).flatMap fun (v, vs) => ofVisit v vs

/-- Whether an output goes to the given sample. -/
def lands (s : Session) (raster : Nat) (x y : Int) (band : Nat) (o : Output) : Bool :=
  band = 0 && (o.place s).toOption = some (raster, x, y)

/-- The last of the outputs that go to a sample. -/
def latest? (s : Session) (os : List Output) (raster : Nat) (x y : Int) (band : Nat) :
    Option Float :=
  (os.reverse.find? (lands s raster x y band)).map (·.value)

section Writes

variable {s : Session} {g g' : Gallery} {o : Output} {os : List Output}

theorem writeAll_append (s : Session) (g : Gallery) (os more : List Output) :
    writeAll s g (os ++ more) = writeAll s g os >>= fun g => writeAll s g more :=
  List.foldlM_append

theorem writeAll_cons_of_ok {g₁ : Gallery} (h : o.write s g = .ok g₁) (os : List Output) :
    writeAll s g (o :: os) = writeAll s g₁ os := by
  rw [writeAll, List.foldlM_cons, h]
  rfl

private theorem writeAll_singleton (s : Session) (g : Gallery) (o : Output) :
    writeAll s g [o] = o.write s g := by
  rw [writeAll, List.foldlM_cons]
  cases o.write s g <;> rfl

private theorem write_eq_ok (h : o.write s g = .ok g') :
    ∃ raster px py, o.place s = .ok (raster, px, py) ∧ g.set raster px py 0 o.value = .ok g' := by
  rw [write] at h
  cases hplace : o.place s with
  | error f =>
    rw [hplace] at h
    cases h
  | ok p =>
    obtain ⟨raster, px, py⟩ := p
    rw [hplace] at h
    refine ⟨raster, px, py, rfl, ?_⟩
    cases hset : g.set raster px py 0 o.value with
    | error f =>
      simp only [Except.mapError, bind, Except.bind, hset] at h
      cases h
    | ok g₁ =>
      simp only [Except.mapError, bind, Except.bind, hset] at h
      exact congrArg _ (Except.ok.inj h)

/-- An output changes the sample that it goes to and no other. -/
theorem sample_write (h : o.write s g = .ok g') (raster : Nat) (x y : Int) (band : Nat) :
    g'.sample raster x y band =
      if o.lands s raster x y band then .ok o.value else g.sample raster x y band := by
  obtain ⟨r, px, py, hplace, hset⟩ := write_eq_ok h
  rw [Gallery.sample_set hset]
  refine if_congr ?_ rfl rfl
  simp only [lands, hplace, Except.toOption, Bool.and_eq_true, decide_eq_true_eq,
    Option.some.injEq, Prod.mk.injEq]
  tauto

/-- After outputs a sample is the last value that went to it, or what it was. -/
theorem sample_writeAll (h : writeAll s g os = .ok g') (raster : Nat) (x y : Int) (band : Nat) :
    g'.sample raster x y band =
      (latest? s os raster x y band).elim (g.sample raster x y band) .ok := by
  induction os using List.reverseRecOn generalizing g' with
  | nil =>
    cases h
    rfl
  | append_singleton os o ih =>
    rw [writeAll_append] at h
    cases hos : writeAll s g os with
    | error f =>
      rw [hos] at h
      cases h
    | ok g₁ =>
      rw [hos] at h
      have ho : o.write s g₁ = .ok g' := (writeAll_singleton s g₁ o).symm.trans h
      rw [sample_write ho, ih hos, latest?, latest?, List.reverse_append, List.reverse_singleton,
        List.singleton_append, List.find?_cons]
      cases o.lands s raster x y band <;> rfl

private theorem place_eq_ok {raster : Nat} {px py : Int} (h : o.place s = .ok (raster, px, py)) :
    ∃ bound, some bound ∈ s.destinations ∧ raster = bound.raster := by
  rw [place, Session.boundAt] at h
  split at h
  · next bound hbound =>
    refine ⟨bound, List.mem_of_getElem? hbound, ?_⟩
    by_cases hfirst : o.image = 0
    · simp only [bind, Except.bind, if_pos hfirst] at h
      cases h
      rfl
    · simp only [bind, Except.bind, if_neg hfirst] at h
      cases hpixel : Session.pixelOf (s.code.destinationName o.image) bound o.visit.x o.visit.y with
      | error f =>
        rw [hpixel] at h
        cases h
      | ok p =>
        rw [hpixel] at h
        cases h
        rfl
  · cases h

/-- Outputs reach only the rasters of destinations. -/
theorem getElem?_writeAll (h : writeAll s g os = .ok g') {raster : Nat}
    (hr : ∀ bound, some bound ∈ s.destinations → raster ≠ bound.raster) :
    g'[raster]? = g[raster]? := by
  induction os generalizing g with
  | nil =>
    cases h
    rfl
  | cons o os ih =>
    cases ho : o.write s g with
    | error f =>
      rw [writeAll, List.foldlM_cons, ho] at h
      cases h
    | ok g₁ =>
      rw [writeAll_cons_of_ok ho] at h
      obtain ⟨target, px, py, hplace, hset⟩ := write_eq_ok ho
      obtain ⟨bound, hbound, rfl⟩ := place_eq_ok hplace
      rw [ih h, Gallery.getElem?_set hset (hr bound hbound)]

end Writes

end Output

namespace Session

/-- No destination is written to a raster that is read as a source. -/
def Apart (s : Session) : Prop :=
  ∀ source destination, some source ∈ s.sources → some destination ∈ s.destinations →
    source.raster ≠ destination.raster

section Evaluations

variable {s : Session} {g g' : Gallery}

private theorem sampleSource_congr
    (h : ∀ source, some source ∈ s.sources → g'[source.raster]? = g[source.raster]?) :
    s.sampleSource g' = s.sampleSource g := by
  funext i band x y
  rw [sampleSource, sampleSource, sourceBand, sourceBand, boundAt]
  split
  · next source hsource =>
    have hraster := h source (List.mem_of_getElem? hsource)
    simp only [bind, Except.bind, hraster]
    cases (Number.natural? band).filter (· < ((g[source.raster]?).map Raster.bands).getD 0) with
    | none => rfl
    | some b => simp only [Gallery.sample, hraster]
  · rfl

private theorem environment_congr
    (h : ∀ source, some source ∈ s.sources → g'[source.raster]? = g[source.raster]?)
    (x y : Float) : s.environment g' x y = s.environment g x y := by
  rw [environment, environment, sampleSource_congr h]

theorem sources_runInit (limit : Nat) (s : Session) (g : Gallery) :
    (s.runInit limit g).1.sources = s.sources := by
  simp only [runInit, initialise]
  split <;> rfl

/-- An evaluation runs the code of the pixel, after the `init` code if need be. -/
theorem evaluate_runs (limit : Nat) (s : Session) (g : Gallery) (x y : Float) :
    s.evaluate limit g x y =
      if s.initialised then s.runPixel limit g x y
      else
        match s.runInit limit g with
        | (t, .ok _) => t.runPixel limit g x y
        | (t, .error halt) => (t, .error halt) := rfl

/-- An evaluation depends on the rasters of the sources only. -/
theorem evaluate_congr (limit : Nat)
    (h : ∀ source, some source ∈ s.sources → g'[source.raster]? = g[source.raster]?)
    (x y : Float) : s.evaluate limit g' x y = s.evaluate limit g x y := by
  have hpixel {t : Session} (ht : t.sources = s.sources) :
      t.runPixel limit g' x y = t.runPixel limit g x y := by
    rw [runPixel, runPixel, environment_congr (ht ▸ h)]
  have hinit : s.runInit limit g' = s.runInit limit g := by
    rw [runInit, runInit, environment_congr h]
  have hsources := sources_runInit limit s g
  rw [evaluate_runs, evaluate_runs, hpixel rfl, hinit]
  generalize s.runInit limit g = started at hsources ⊢
  obtain ⟨t, result⟩ := started
  cases result with
  | error halt => rfl
  | ok _ => exact if_congr Iff.rfl rfl (hpixel hsources)

end Evaluations

end Session

end RasterScript
