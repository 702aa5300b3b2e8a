import Mathlib
import RasterScript.Proofs.Raster.Words
import RasterScript.Proofs.Session.Course

/-! Sessions in machine words. Where the extents of the sources and the bounds fit, an evaluation in
words is the one with exact results. -/
namespace RasterScript.Session

variable {w : Words} {s : Session} {g : Gallery}

/-- The rasters of the sources and the bounds fit in words. -/
structure Fits (s : Session) (g : Gallery) : Prop where
  sources : ∀ bound r, some bound ∈ s.sources → g[bound.raster]? = some r → r.Fits
  bounds : ∀ e, s.bounds = some e → e.Fits

/-- The `init` code changes neither sources nor bounds. -/
theorem Fits.initialise (h : s.Fits g) (limit : ℕ) (env : Environment) :
    (s.initialise limit env).1.Fits g := by
  simp only [Session.initialise]
  split <;> exact ⟨h.sources, h.bounds⟩

end RasterScript.Session
