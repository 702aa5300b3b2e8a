import RasterScript.Proofs.Raster.Store
import RasterScript.Session

/-! Samples are kept apart: a change of one sample of a gallery leaves all others as they are. -/
namespace RasterScript.Gallery

variable {g g' : Gallery} {raster : Nat} {x y : Int} {band : Nat} {value : Float}

private theorem set_eq_ok (h : g.set raster x y band value = .ok g') :
    ∃ r i, g[raster]? = some r ∧ r.index x y band = .ok i ∧ g' = g.put raster i value := by
  rw [set, index] at h
  cases hr : g[raster]? with
  | none =>
    rw [hr] at h
    cases h
  | some r =>
    rw [hr] at h
    cases hi : r.index x y band with
    | error f =>
      simp only [hi] at h
      cases h
    | ok i =>
      simp only [hi] at h
      exact ⟨r, i, rfl, hi, (Except.ok.inj h).symm⟩

/-- A change reaches no other raster. -/
theorem getElem?_set (h : g.set raster x y band value = .ok g') {other : Nat}
    (hne : other ≠ raster) : g'[other]? = g[other]? := by
  obtain ⟨r, i, -, -, rfl⟩ := set_eq_ok h
  simp [put, hne.symm]

/-- After a change a sample is the new value or what it was. -/
theorem sample_set (h : g.set raster x y band value = .ok g') (other : Nat) (x' y' : Int)
    (band' : Nat) :
    g'.sample other x' y' band' =
      if other = raster ∧ x' = x ∧ y' = y ∧ band' = band then .ok value
      else g.sample other x' y' band' := by
  by_cases hraster : other = raster
  · subst hraster
    obtain ⟨r, i, hr, hi, rfl⟩ := set_eq_ok h
    have hput : (g.put other i value)[other]? = some (r.put i value) := by
      rw [put, List.getElem?_modify_eq, hr]
      rfl
    simp only [sample, hput, hr]
    by_cases hsame : x' = x ∧ y' = y ∧ band' = band
    · obtain ⟨rfl, rfl, rfl⟩ := hsame
      rw [if_pos ⟨trivial, rfl, rfl, rfl⟩, Raster.sample_put_self hi]
    · rw [if_neg fun h => hsame h.2]
      exact Raster.sample_put_of_ne (fun hi' => hsame (Raster.index_inj hi' hi)) value
  · rw [if_neg fun hsame => hraster hsame.1, sample, sample, getElem?_set h hraster]

end RasterScript.Gallery
