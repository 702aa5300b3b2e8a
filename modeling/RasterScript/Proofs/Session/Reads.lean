import RasterScript.Proofs.Number.Values
import RasterScript.Proofs.Raster.Store
import RasterScript.Session

/-! Reading a source by its name and reading it in code come to the same sample. They differ where
there is none: code looks at the band first, and may have a value for positions outside. -/
namespace RasterScript

/-- The sample of a bound raster at a world position. -/
def BoundRaster.sampleAt? (bound : BoundRaster) (r : Raster) (x y : Float) (band : Nat) :
    Option Float :=
  (bound.transform.imagePixel? x y).bind fun (px, py) => (r.sample px py band).toOption

namespace Session

open Number (natural? value?)

variable {s : Session} {g : Gallery} {image : String} {i : Nat} {bound : BoundRaster} {r : Raster}

private theorem imageIndex_eq_ok {names : List String} (h : imageIndex names image = .ok i) :
    names[i]? = some image := by
  rw [imageIndex] at h
  split at h
  · next j hj =>
    cases h
    obtain ⟨hlt, hname, -⟩ := List.findIdx?_eq_some_iff_getElem.mp hj
    rw [List.getElem?_eq_getElem hlt, of_decide_eq_true hname]
  · cases h

section Bound

variable (himage : imageIndex s.code.sources image = .ok i)
  (hbound : s.sources[i]? = some (some bound)) (hr : g[bound.raster]? = some r)
include himage hbound hr

/-- With a band of the raster, a read by name fails only outside. -/
theorem readImage_of_band {b : Nat} (hb : b < r.bands) (x y : Float) :
    s.readImage g image x y b =
      (bound.sampleAt? r x y b).elim (.error (.outOfBounds image x y)) .ok := by
  rw [readImage, himage]
  simp only [bind, Except.bind, boundAt, hbound, pixelOf, BoundRaster.sampleAt?, Gallery.sample, hr]
  cases bound.transform.imagePixel? x y with
  | none => rfl
  | some p =>
    obtain ⟨px, py⟩ := p
    simp only [Option.bind]
    by_cases hin : r.extent.contains px py
    · obtain ⟨v, hv⟩ := Raster.sample_of_contains hb hin
      rw [hv]
      rfl
    · rw [Raster.sample_of_not_contains hin]
      rfl

/-- Without a band of the raster, a read by name gives nothing. -/
theorem readImage_of_no_band {b : Nat} (hb : r.bands ≤ b) (x y v : Float) :
    s.readImage g image x y b ≠ .ok v := by
  intro h
  rw [readImage, himage] at h
  simp only [bind, Except.bind, boundAt, hbound, pixelOf, Gallery.sample, hr] at h
  cases hpixel : bound.transform.imagePixel? x y with
  | none =>
    rw [hpixel] at h
    cases h
  | some p =>
    obtain ⟨px, py⟩ := p
    rw [hpixel] at h
    cases hindex : r.index px py b with
    | ok k => exact absurd (Raster.index_eq_ok hindex).2.1 (Nat.not_lt.mpr hb)
    | error f =>
      simp only [Raster.sample, hindex] at h
      cases h

/-- A read in code, by what its band is. -/
theorem sampleSource_eq (band x y : Float) :
    s.sampleSource g i band x y =
      ((natural? band).filter (· < r.bands)).elim (.error (.bandOutOfRange image band r.bands))
        fun b => (bound.sampleAt? r x y b <|> s.code.outside).elim
          (.error (.outOfBounds image x y)) .ok := by
  have hname : s.code.sourceName i = image := by
    rw [Code.sourceName, Code.nameAt, List.getD_eq_getElem?_getD, imageIndex_eq_ok himage,
      Option.getD_some]
  rw [sampleSource, sourceBand, hname]
  simp only [bind, Except.bind, boundAt, hbound, hr, Option.map_some, Option.getD_some]
  cases (natural? band).filter (· < r.bands) with
  | none => rfl
  | some b =>
    simp only [Gallery.sample, hr, orOutside, hname]
    show _ = (bound.sampleAt? r x y b <|> s.code.outside).elim _ _
    rw [BoundRaster.sampleAt?]
    cases (((bound.transform.imagePixel? x y).bind fun (px, py) => (r.sample px py b).toOption) <|>
      s.code.outside) <;> rfl

/-- A band that is no band of the raster, wherever the position lies. -/
theorem sampleSource_of_no_band {band : Float} (hband : ∀ b, natural? band = some b → r.bands ≤ b)
    (x y : Float) :
    s.sampleSource g i band x y = .error (.bandOutOfRange image band r.bands) := by
  have hnone : (natural? band).filter (· < r.bands) = none := by
    rw [Option.filter_eq_none_iff]
    intro b hb
    simpa using hband b hb
  rw [sampleSource_eq himage hbound hr, hnone]
  rfl

/-- With a band of the raster, a read in code is a read by name with another answer outside. -/
theorem sampleSource_eq_readImage {band : Float} {b : Nat} (hband : natural? band = some b)
    (hb : b < r.bands) (x y : Float) :
    s.sampleSource g i band x y =
      match s.readImage g image x y b with
      | .ok v => .ok v
      | .error f => s.code.outside.elim (.error f) .ok := by
  have hsome : (natural? band).filter (· < r.bands) = some b := by
    rw [hband, Option.filter_some, if_pos (decide_eq_true hb)]
  rw [sampleSource_eq himage hbound hr, hsome, readImage_of_band himage hbound hr hb]
  cases hsample : bound.sampleAt? r x y b with
  | none =>
    simp only [Option.elim, hsample]
    cases s.code.outside <;> rfl
  | some v =>
    simp only [Option.elim, hsample]
    rfl

/-- A read in code gives what a read by name gives, and where that fails with a band of the raster
the script's value for positions outside, or else the same failure. A band that the raster does not
have is refused at every position, and so is one that is no natural number. -/
theorem reads_in_code_agree_with_reads_by_name (wx wy : Float) (m : Memory)
    {bandExpr : Option Code.Expr} {point : Option (Code.Point Code.Expr)} {band x y : Float}
    (hband : Machine.evalBand (s.environment g wx wy) m bandExpr = .ok band)
    (hpoint : Machine.evalPoint (s.environment g wx wy) m point = .ok (x, y)) :
    let read := Machine.eval (s.environment g wx wy) m (.read i bandExpr point)
    (∀ b < 2 ^ 53, band = Float.ofNat b →
      (∀ v, s.readImage g image x y b = .ok v → read = .ok v) ∧
      (b < r.bands → ∀ f, s.readImage g image x y b = .error f →
        read = s.code.outside.elim (.error f) .ok) ∧
      (r.bands ≤ b → read = .error (.bandOutOfRange image band r.bands))) ∧
    (band.isNaN ∨ band.isInf ∨ band < 0 ∨ (∃ v, value? band = some v ∧ v.den ≠ 1) →
      read = .error (.bandOutOfRange image band r.bands)) := by
  intro read
  have hread : read = s.sampleSource g i band x y := by
    simp only [read, Machine.eval, hband, hpoint]
    rfl
  rw [hread]
  constructor
  · rintro b hb rfl
    have hnatural := Number.natural?_ofNat hb
    refine ⟨fun v hv => ?_, fun hlt f hf => ?_, fun hge => ?_⟩
    · rcases Nat.lt_or_ge b r.bands with hlt | hge
      · rw [sampleSource_eq_readImage himage hbound hr hnatural hlt, hv]
      · exact absurd hv (readImage_of_no_band himage hbound hr hge x y v)
    · rw [sampleSource_eq_readImage himage hbound hr hnatural hlt, hf]
    · refine sampleSource_of_no_band himage hbound hr (fun b' hb' => ?_) x y
      obtain rfl := Option.some.inj (hnatural.symm.trans hb')
      exact hge
  · intro hwrong
    have hnone : natural? band = none := by
      rcases hwrong with h | h | h | ⟨v, hv, hden⟩
      · exact Number.natural?_of_isNaN h
      · exact Number.natural?_of_isInf h
      · exact Number.natural?_of_neg h
      · exact Number.natural?_of_fraction hv hden
    refine sampleSource_of_no_band himage hbound hr (fun b hb => ?_) x y
    rw [hnone] at hb
    cases hb

end Bound

/-- A session whose only source has two bands, and a value for positions outside. -/
def twoBands : Session where
  code :=
    { sources := ["src"], destinations := [], imageSlots := [], pixelSlots := [], listSlots := [],
      init := [], body := [], outside := some (-1) }
  sources := [some ⟨0, .translate 1 0⟩]
  destinations := []
  bounds := none
  imageValues := []
  initialised := false

theorem reads_of_twoBands_agree :
    ∃ r, Raster.ofData (.sized 2 1) 2 #[0, 1, 10, 11] = .ok r ∧
      twoBands.readImage [r] "src" 0 0 1 = .ok 11 ∧
      ∀ m, Machine.eval (twoBands.environment [r] 0 0) m (.read 0 (some (.const 1)) none) =
          .ok 11 ∧
        Machine.eval (twoBands.environment [r] 5 0) m (.read 0 (some (.const 1)) none) =
          .ok (-1) ∧
        Machine.eval (twoBands.environment [r] 5 0) m (.read 0 (some (.const (-3))) none) =
          .error (.bandOutOfRange "src" (-3) 2) := by
  let r : Raster := ⟨.sized 2 1, 2, #[0, 1, 10, 11], by decide, by decide⟩
  refine ⟨r, rfl, by decide +kernel, fun m => ?_⟩
  have hagree (x band : Float) := @reads_in_code_agree_with_reads_by_name twoBands [r] "src" 0 _ r
    rfl rfl rfl x 0 m (some (.const band)) none band x 0 (by rw [Machine.evalBand, Machine.eval]) rfl
  refine ⟨?_, ?_, ?_⟩
  · exact ((hagree 0 1).1 1 (by decide) rfl).1 11 (by decide +kernel)
  · exact ((hagree 5 1).1 1 (by decide) rfl).2.1 (by decide) (.outOfBounds "src" 5 0)
      (by decide +kernel)
  · exact (hagree 5 (-3)).2 (.inr (.inr (.inl (by decide +kernel))))

end Session

end RasterScript
