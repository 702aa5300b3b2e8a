import RasterScript.Proofs.Machine.Frame
import RasterScript.Proofs.Session.Sweep

/-! The course of a sweep: what it leaves alone, and what it notes of its writes. -/
namespace RasterScript

/-! ### What sweeps leave alone -/

/-- Two moments of a sweep: only image values and samples may differ. -/
structure Alike (s : Session) (g : Gallery) (t : Session) (h : Gallery) : Prop where
  code : t.code = s.code
  destinations : t.destinations = s.destinations
  bounds : t.bounds = s.bounds
  extents : ∀ raster, Session.extentOf h raster = Session.extentOf g raster

theorem Alike.refl (s : Session) (g : Gallery) : Alike s g s g :=
  ⟨rfl, rfl, rfl, fun _ => rfl⟩

theorem Alike.trans {s t u : Session} {g h k : Gallery} (hst : Alike s g t h)
    (htu : Alike t h u k) : Alike s g u k where
  code := htu.code.trans hst.code
  destinations := htu.destinations.trans hst.destinations
  bounds := htu.bounds.trans hst.bounds
  extents raster := (htu.extents raster).trans (hst.extents raster)

theorem Session.extentOf_put (g : Gallery) (raster i : Nat) (value : Float) (other : Nat) :
    extentOf (g.put raster i value) other = extentOf g other := by
  rw [extentOf, extentOf, Gallery.put, List.getElem?_modify]
  cases g[other]? with
  | none => rfl
  | some r =>
    show (if raster = other then r.put i value else r).extent = r.extent
    split <;> rfl

theorem Session.runInit_alike (limit : Nat) (s : Session) (g : Gallery) :
    Alike s g (s.runInit limit g).1 g := by
  simp only [runInit, initialise]
  split <;> exact ⟨rfl, rfl, rfl, fun _ => rfl⟩

namespace Progression

/-- The session and the rasters of a later moment. -/
abbrev Later (p q : Progression) : Prop := Alike p.session p.gallery q.session q.gallery

private theorem record_later (p : Progression) (w : Write) (place : Option Nat) :
    Later p (p.record w place) := by
  cases place with
  | none => exact .refl ..
  | some i => exact ⟨rfl, rfl, rfl, Session.extentOf_put _ _ _ _⟩

private theorem writePixel_later (p : Progression) (image : String) (bound : BoundRaster)
    (px py : Int) (x y value : Float) : Later p (p.writePixel image bound px py x y value).1 := by
  rw [writePixel]
  split <;> exact record_later ..

theorem writeValue_later (p : Progression) (v : Visit) (i : Nat) (value : Float) :
    Later p (p.writeValue v i value).1 := by
  simp only [writeValue]
  split
  · exact .refl ..
  · split
    · exact writePixel_later ..
    · split
      · exact writePixel_later ..
      · exact .refl ..

theorem writeValues_later (p : Progression) (v : Visit) (i : Nat) (values : List Float) :
    Later p (p.writeValues v i values).1 := by
  induction values generalizing p i with
  | nil => exact .refl ..
  | cons value values ih =>
    have hfirst := p.writeValue_later v i value
    rw [writeValues]
    split
    · next q _ heq =>
      rw [heq] at hfirst
      exact hfirst.trans (ih q (i + 1))
    · exact hfirst

theorem visit_later (limit : Nat) (p : Progression) (v : Visit) :
    Later p (p.visit limit v).1 := by
  have hrun : Alike p.session p.gallery (p.session.runPixel limit p.gallery v.x v.y).1 p.gallery :=
    ⟨rfl, rfl, rfl, fun _ => rfl⟩
  rw [visit]
  generalize p.session.runPixel limit p.gallery v.x v.y = evaluated at hrun ⊢
  obtain ⟨t, result⟩ := evaluated
  cases result with
  | error halt => exact hrun
  | ok values =>
    have hwritten := ({ p with session := t } : Progression).writeValues_later v 0 values
    simp only []
    generalize ({ p with session := t } : Progression).writeValues v 0 values = written
      at hwritten ⊢
    obtain ⟨q, result⟩ := written
    cases result with
    | error f => exact hrun.trans hwritten
    | ok _ => exact hrun.trans hwritten

theorem visitAll_later (limit : Nat) (p : Progression) (visits : List Visit) :
    Later p (p.visitAll limit visits).1 := by
  induction visits generalizing p with
  | nil => exact .refl ..
  | cons v visits ih =>
    have hfirst := p.visit_later limit v
    rw [visitAll]
    split
    · next q _ heq =>
      rw [heq] at hfirst
      exact hfirst.trans (ih q)
    · exact hfirst

end Progression

/-- Past its preparation, a sweep keeps the destinations, the bounds and the extents. -/
theorem Session.sweep_alike {limit : Nat} {every : Nat → Nat} {s t : Session} {g : Gallery}
    {bounds : Extent} (h : s.prepare g = .ok (t, bounds)) :
    Alike t g (s.sweep limit every g).session (s.sweep limit every g).gallery := by
  have hinit := t.runInit_alike limit g
  simp only [sweep, h]
  cases t.plan g bounds with
  | error f => exact .refl ..
  | ok visits =>
    simp only []
    generalize t.runInit limit g = started at hinit ⊢
    obtain ⟨u, result⟩ := started
    cases result with
    | error halt => exact hinit
    | ok _ => exact hinit.trans (Progression.visitAll_later limit ⟨u, g, [], 0⟩ visits)

/-! ### Writes -/

/-- The write of an output that goes through. -/
def Output.noted? (s : Session) (o : Output) : Option Write :=
  (o.place s).toOption.map fun (raster, px, py) => ⟨raster, px, py, 0, o.value, true⟩

namespace Progression

open Output (ofVisitFrom ofVisit ofVisits noted?)

variable {limit : Nat} {p q : Progression} {v : Visit}

private theorem writePixel_ok {image : String} {bound : BoundRaster} {px py : Int}
    {x y value : Float} (h : p.writePixel image bound px py x y value = (q, .ok ())) :
    q.session = p.session ∧ q.done = p.done ∧
      q.writes = ⟨bound.raster, px, py, 0, value, true⟩ :: p.writes := by
  rw [writePixel] at h
  split at h
  · cases h
    exact ⟨rfl, rfl, rfl⟩
  · cases h

theorem writeValue_ok {i : Nat} {value : Float} (h : p.writeValue v i value = (q, .ok ())) :
    q.session = p.session ∧ q.done = p.done ∧
      ∃ w, noted? p.session ⟨v, i, value⟩ = some w ∧ q.writes = w :: p.writes := by
  rw [writeValue] at h
  rw [noted?, Output.place]
  cases hbound : Session.boundAt p.session.destinations (p.session.code.destinationName i) i with
  | error f =>
    simp only [hbound] at h
    cases h
  | ok bound =>
    by_cases hi : i = 0
    · simp only [hbound, if_pos hi] at h
      obtain ⟨hsession, hdone, hwrites⟩ := writePixel_ok h
      refine ⟨hsession, hdone, _, ?_, hwrites⟩
      simp only [bind, Except.bind, if_pos hi]
      rfl
    · cases hpixel : Session.pixelOf (p.session.code.destinationName i) bound v.x v.y with
      | error f =>
        simp only [hbound, if_neg hi, hpixel] at h
        cases h
      | ok pixel =>
        simp only [hbound, if_neg hi, hpixel] at h
        obtain ⟨hsession, hdone, hwrites⟩ := writePixel_ok h
        refine ⟨hsession, hdone, _, ?_, hwrites⟩
        simp only [bind, Except.bind, if_neg hi, hpixel]
        rfl

private theorem writeValues_ok {i : Nat} {values : List Float}
    (h : p.writeValues v i values = (q, .ok ())) :
    q.session = p.session ∧ q.done = p.done ∧
      q.writes = ((ofVisitFrom v i values).filterMap (noted? p.session)).reverse ++ p.writes := by
  induction values generalizing p i with
  | nil =>
    cases h
    exact ⟨rfl, rfl, rfl⟩
  | cons value values ih =>
    rw [writeValues] at h
    split at h
    · next p₁ hfirst =>
      obtain ⟨hsession, hdone, w, hw, hwrites⟩ := writeValue_ok hfirst
      obtain ⟨hsession', hdone', hwrites'⟩ := ih h
      refine ⟨hsession'.trans hsession, hdone'.trans hdone, ?_⟩
      rw [hwrites', hwrites, hsession, ofVisitFrom_cons, List.filterMap_cons_some hw,
        List.reverse_cons, List.append_assoc, List.singleton_append]
    · next hno =>
      exact absurd h (hno q ())

end Progression

/-! ### Numbers of outputs -/

/-- A run that comes to its end has an output for every destination. -/
theorem Machine.length_outputs {limit : Nat} {c : Code} {env : Environment} {values : List Float}
    {ss : List Code.Stmt} {outputs : List (Option Float)}
    (h : (run limit c env values ss).outputs = .ok outputs) :
    outputs.length = c.destinations.length := by
  have hkept : Memory.Unaffected (fun _ => True)
      fun m => m.outputs.length = c.destinations.length := by
    refine ⟨fun {slot} _ {m} v hm => ?_, fun _ _ hm => hm, fun i v hm => ?_⟩
    · cases slot <;> exact hm
    · exact (List.length_set ..).trans hm
  have hend := @execAll_keeps _ _ limit env hkept ss (fun _ _ => trivial) (fun _ _ => trivial)
    (.fresh c values) List.length_replicate
  rw [run] at h
  split at h
  · cases h
  · next heq =>
    rw [heq] at hend
    rwa [← Except.ok.inj h]

namespace Progression

open Output (ofVisit ofVisits noted?)

variable {limit : Nat} {s : Session} {p q : Progression}

theorem length_runPixel {g : Gallery} {x y : Float} {t : Session} {vs : List Float}
    (h : s.runPixel limit g x y = (t, .ok vs)) : vs.length = s.code.destinations.length := by
  obtain ⟨-, hvalues⟩ := Prod.mk.inj h
  cases houtputs : (Machine.run limit s.code (s.environment g x y) s.imageValues
      s.code.body).outputs with
  | error halt =>
    rw [houtputs] at hvalues
    cases hvalues
  | ok outputs =>
    rw [houtputs] at hvalues
    rw [← Except.ok.inj hvalues, List.length_map, Machine.length_outputs houtputs]

theorem noted?_congr {t : Session} (hcode : t.code = s.code)
    (hdest : t.destinations = s.destinations) : noted? t = noted? s := by
  funext o
  rw [noted?, noted?, Output.place_congr hcode hdest]

private theorem visit_ok {v : Visit} (h : p.visit limit v = (q, .ok ())) :
    q.done = p.done + 1 ∧ ∃ vs, vs.length = p.session.code.destinations.length ∧
      q.writes = ((ofVisit v vs).filterMap (noted? p.session)).reverse ++ p.writes := by
  rw [visit] at h
  split at h
  · cases h
  · next t vs hrun =>
    obtain rfl : t = (p.session.runPixel limit p.gallery v.x v.y).1 := (congrArg Prod.fst hrun).symm
    split at h
    · cases h
    · next p₁ hwrite =>
      obtain ⟨-, hdone, hwrites⟩ := writeValues_ok hwrite
      cases h
      exact ⟨congrArg (· + 1) hdone, vs, length_runPixel hrun, hwrites⟩

/-- Visits that come to their end note one write for each value of each visit. -/
theorem visitAll_ok {visits : List Visit} (h : p.visitAll limit visits = (q, .ok ())) :
    q.done = p.done + visits.length ∧ ∃ values, values.length = visits.length ∧
      (∀ vs ∈ values, vs.length = p.session.code.destinations.length) ∧
      q.writes = ((ofVisits visits values).filterMap (noted? p.session)).reverse ++ p.writes := by
  induction visits generalizing p with
  | nil =>
    cases h
    exact ⟨rfl, [], rfl, List.forall_mem_nil _, rfl⟩
  | cons v visits ih =>
    rw [visitAll] at h
    split at h
    · next p₁ hfirst =>
      have hlater := p.visit_later limit v
      rw [hfirst] at hlater
      obtain ⟨hdone, vs, hvs, hwrites⟩ := visit_ok hfirst
      obtain ⟨hdone', values, hlength, hvalues, hwrites'⟩ := ih h
      refine ⟨?_, vs :: values, congrArg (· + 1) hlength, ?_, ?_⟩
      · rw [hdone', hdone, List.length_cons]
        omega
      · exact List.forall_mem_cons.mpr ⟨hvs, hlater.code ▸ hvalues⟩
      · rw [hwrites', hwrites, noted?_congr hlater.code hlater.destinations]
        show _ = ((ofVisit v vs ++ ofVisits visits values).filterMap _).reverse ++ _
        rw [List.filterMap_append, List.reverse_append, List.append_assoc]
    · next hno => exact absurd h (hno q ())

end Progression

end RasterScript
