import Mathlib
import RasterScript.Proofs.Json.Numbers
import RasterScript.Proofs.Raster.Words

/-! Rasters and their texts. The text of a raster is read back as the raster, with NaN for its
infinite samples, as far as the doubles in it are read back. The number of samples is counted in
machine words. -/
namespace RasterScript

open Number

namespace Json

/-! ### Fields -/

/-- A name that stands once finds its own member. -/
theorem filter_name {members : List (String × Json)} (h : (members.map Prod.fst).Nodup)
    {m : String × Json} (hm : m ∈ members) : members.filter (fun k => k.1 = m.1) = [m] := by
  induction members with
  | nil => cases hm
  | cons k ks ih =>
    obtain ⟨hnew, hrest⟩ := List.nodup_cons.mp h
    obtain rfl | hm := List.mem_cons.mp hm
    · rw [List.filter_cons_of_pos (by rw [decide_eq_true_eq]), List.filter_eq_nil_iff.mpr]
      intro k hk hsame
      exact hnew (List.mem_map.mpr ⟨k, hk, of_decide_eq_true hsame⟩)
    · rw [List.filter_cons_of_neg, ih hrest hm]
      intro hsame
      exact hnew (List.mem_map.mpr ⟨m, hm, (of_decide_eq_true hsame).symm⟩)

theorem mem_of_mapM {α β : Type} {g : α → Option β} {l : List α} {m : List β}
    (h : l.mapM g = some m) {b : β} (hb : b ∈ m) : ∃ a ∈ l, g a = some b := by
  induction l generalizing m with
  | nil =>
    obtain rfl := Option.some.inj h
    cases hb
  | cons a l ih =>
    rw [List.mapM_cons] at h
    obtain ⟨c, hc, h⟩ := Option.bind_eq_some_iff.mp h
    obtain ⟨n, hn, h⟩ := Option.bind_eq_some_iff.mp h
    obtain rfl := Option.some.inj h
    obtain rfl | hb := List.mem_cons.mp hb
    · exact ⟨a, List.mem_cons_self, hc⟩
    · obtain ⟨a', ha', hg⟩ := ih hn hb
      exact ⟨a', List.mem_cons_of_mem a ha', hg⟩

/-- The fields of a record are its values. -/
theorem fieldsOf?_record {members : List (String × Json)} (h : (members.map Prod.fst).Nodup) :
    (record members).fieldsOf? (members.map Prod.fst) = some (members.map fun m => some m.2) := by
  have htexts : ((members.map fun m => (escape m.1, m.2)).mapM
      fun m => (textOf? m.1).map (·, m.2)) = some (members.map id) := by
    refine mapM_map_eq_some fun m _ => ?_
    rw [textOf?_escape]
    rfl
  rw [List.map_id] at htexts
  show fields? (members.map Prod.fst) (members.map fun m => (escape m.1, m.2)) = _
  rw [fields?, htexts]
  refine mapM_map_eq_some fun m hm => ?_
  simp only [filter_name h hm]

theorem wellFormed_record {members : List (String × Json)}
    (h : ∀ m ∈ members, WellFormed m.2) : WellFormed (record members) := by
  refine .object ?_ ?_
  · intro m hm
    obtain ⟨k, -, rfl⟩ := List.mem_map.mp hm
    exact isRaw_escape k.1
  · intro m hm
    obtain ⟨k, hk, rfl⟩ := List.mem_map.mp hm
    exact h k hk

theorem coordinate?_eq_some_iff {j : Json} {n : ℤ} :
    j.coordinate? = some n ↔ j.int? = some n ∧ IsWord n := by
  have hcheck : j.coordinate? = j.int?.bind fun n =>
    if (decide (-(twoTo 63 : ℤ) ≤ n) && decide (n < (twoTo 63 : ℕ))) = true then some n else none :=
    rfl
  rw [hcheck, Option.bind_eq_some_iff]
  simp only [Option.ite_none_right_eq_some, Bool.and_eq_true, decide_eq_true_eq, Option.some_inj]
  constructor
  · rintro ⟨k, hk, hword, rfl⟩
    exact ⟨hk, hword⟩
  · rintro ⟨hn, hword⟩
    exact ⟨n, hn, hword, rfl⟩

theorem size?_eq_some_iff {j : Json} {n : ℕ} :
    j.size? = some n ↔ j.int? = some (n : ℤ) ∧ n < 2 ^ 32 := by
  have hcheck : j.size? = j.int?.bind fun n =>
    if (decide (0 ≤ n) && decide (n < (twoTo 32 : ℕ))) = true then some n.toNat else none := rfl
  rw [hcheck, Option.bind_eq_some_iff]
  simp only [Option.ite_none_right_eq_some, Bool.and_eq_true, decide_eq_true_eq, Option.some_inj,
    show twoTo 32 = 2 ^ 32 from rfl]
  constructor
  · rintro ⟨k, hk, ⟨hlow, hhigh⟩, rfl⟩
    rw [Int.toNat_of_nonneg hlow]
    exact ⟨hk, by omega⟩
  · rintro ⟨hn, hlt⟩
    exact ⟨n, hn, ⟨Int.natCast_nonneg n, by exact_mod_cast hlt⟩, Int.toNat_natCast n⟩

theorem coordinate?_ofInt {n : ℤ} (h : IsWord n) : (ofInt n).coordinate? = some n := by
  obtain ⟨hlow, hhigh⟩ := h
  exact coordinate?_eq_some_iff.mpr ⟨int?_ofInt hlow (by omega), hlow, hhigh⟩

theorem size?_ofNat {n : ℕ} (h : n < 2 ^ 32) : (ofNat n).size? = some n :=
  size?_eq_some_iff.mpr ⟨int?_ofInt (by omega) (by omega), h⟩

/-- The sample that is read from the text of a sample. -/
def reread (x : Float) : Float := (ofFloat x).sample?.getD (Binary.toFloat .nan)

/-- The text of a finite sample is read as the sample. -/
def Rereads (x : Float) : Prop := x.isFinite = true → (ofFloat x).float? = some x

/-- A sample with NaN for an infinity. -/
def stored (x : Float) : Float := if x.isInf then Binary.toFloat .nan else x

private theorem sample?_of_finite {x : Float} (h : x.isFinite = true) :
    (ofFloat x).sample? = (ofFloat x).float? := by
  obtain ⟨literal, hnumber, -⟩ := ofFloat_of_finite h
  rw [hnumber]
  rfl

theorem sample?_ofFloat (x : Float) : (ofFloat x).sample? = some (reread x) := by
  have hsome : (ofFloat x).sample?.isSome = true := by
    by_cases h : x.isFinite = true
    · rw [sample?_of_finite h]
      exact isSome_float? h
    · rw [ofFloat_of_not_finite h]
      rfl
  obtain ⟨y, hy⟩ := Option.isSome_iff_exists.mp hsome
  rw [reread, hy, Option.getD_some]

private theorem stored_of_not_finite {x : Float} (h : x.isFinite ≠ true) :
    stored x = Binary.toFloat .nan := by
  rw [stored]
  split
  · rfl
  · next hinf =>
    have hnan : x.isNaN = true := by
      by_contra hnumber
      exact h (isFinite_iff_not.mpr
        ⟨Bool.eq_false_of_not_eq_true hnumber, Bool.eq_false_of_not_eq_true hinf⟩)
    rw [Float.isNaN_eq_decide_eq_nan, decide_eq_true_eq] at hnan
    rw [hnan]
    decide +kernel

theorem stored_eq {x : Float} (h : x.isInf = false) : stored x = x := by
  rw [stored, h, if_neg Bool.false_ne_true]

theorem reread_eq {x : Float} (h : Rereads x) : reread x = stored x := by
  rw [← Option.some_inj, ← sample?_ofFloat]
  by_cases hfinite : x.isFinite = true
  · rw [sample?_of_finite hfinite, h hfinite, stored_eq (isFinite_iff_not.mp hfinite).2]
  · rw [ofFloat_of_not_finite hfinite, stored_of_not_finite hfinite]
    rfl

theorem isInf_of_sample? {j : Json} {x : Float} (h : j.sample? = some x) : x.isInf = false := by
  unfold sample? at h
  split at h
  · obtain rfl := Option.some.inj h
    decide +kernel
  · exact (isFinite_iff_not.mp (isFinite_of_float? h)).2

end Json

namespace Extent

theorem wellFormed_toJson (e : Extent) : e.toJson.WellFormed := by
  apply Json.wellFormed_record
  simp only [List.forall_mem_cons]
  exact ⟨Json.wellFormed_ofInt _, Json.wellFormed_ofInt _, Json.wellFormed_ofInt _,
    Json.wellFormed_ofInt _, List.forall_mem_nil _⟩

theorem ofJson?_toJson {e : Extent} (h : e.Storable) : ofJson? e.toJson = some e := by
  have hfields : e.toJson.fieldsOf? ["min_x", "min_y", "width", "height"] =
      some [some (.ofInt e.minX), some (.ofInt e.minY), some (.ofNat e.width),
        some (.ofNat e.height)] :=
    Json.fieldsOf?_record (show ["min_x", "min_y", "width", "height"].Nodup by decide)
  rw [ofJson?, hfields]
  simp only [Json.coordinate?_ofInt h.minX, Json.coordinate?_ofInt h.minY,
    Json.size?_ofNat h.width, Json.size?_ofNat h.height]
  rfl

theorem storable_of_json {j : Json} {e : Extent} (h : ofJson? j = some e) : e.Storable := by
  rw [ofJson?] at h
  split at h
  · next x y width height _ =>
    obtain ⟨minX, hx, h⟩ := Option.bind_eq_some_iff.mp h
    obtain ⟨minY, hy, h⟩ := Option.bind_eq_some_iff.mp h
    obtain ⟨w, hw, h⟩ := Option.bind_eq_some_iff.mp h
    obtain ⟨t, ht, h⟩ := Option.bind_eq_some_iff.mp h
    obtain rfl := Option.some.inj h
    exact ⟨(Json.coordinate?_eq_some_iff.mp hx).2, (Json.coordinate?_eq_some_iff.mp hy).2,
      (Json.size?_eq_some_iff.mp hw).2, (Json.size?_eq_some_iff.mp ht).2⟩
  · cases h

end Extent

/-- What stands in a document fits its fields and holds no infinite sample. -/
theorem Raster.storable_of_parts {j : Json} {extent : Extent} {bands : ℕ} {data : Array Float}
    (h : parts? j = some (extent, bands, data)) :
    extent.Storable ∧ bands < 2 ^ 32 ∧ ∀ x ∈ data, x.isInf = false := by
  rw [parts?] at h
  split at h
  · next field count items _ =>
    obtain ⟨e, he, h⟩ := Option.bind_eq_some_iff.mp h
    -- A number of bands that is not there is one.
    obtain ⟨b, hb, h⟩ : ∃ b < 2 ^ 32, ((items.mapM Json.sample?).bind fun data =>
        some (e, b, data.toArray)) = some (extent, bands, data) := by
      cases count with
      | none => exact ⟨1, by decide, h⟩
      | some k =>
        obtain ⟨b, hb, h⟩ := Option.bind_eq_some_iff.mp h
        exact ⟨b, (Json.size?_eq_some_iff.mp hb).2, h⟩
    obtain ⟨samples, hsamples, h⟩ := Option.bind_eq_some_iff.mp h
    cases h
    refine ⟨Extent.storable_of_json he, hb, fun x hx => ?_⟩
    obtain ⟨k, -, hk⟩ := Json.mem_of_mapM hsamples (List.mem_toArray.mp hx)
    exact Json.isInf_of_sample? hk
  · cases h

theorem Raster.ofData_eq_some_iff {extent : Extent} {bands : ℕ} {data : Array Float} {r : Raster} :
    (ofData extent bands data).toOption = some r ↔
      r.extent = extent ∧ r.bands = bands ∧ r.data = data := by
  constructor
  · intro h
    rw [ofData] at h
    split at h
    · split at h
      · cases h
        exact ⟨rfl, rfl, rfl⟩
      · cases h
    · cases h
  · rintro ⟨rfl, rfl, rfl⟩
    rw [ofData, dif_pos r.bands_pos, dif_pos r.size_eq]
    rfl

namespace Grid

variable {w : Words} {r : Grid} {extent : Extent} {bands : ℕ} {data : Array Float}

/-! ### Grids that are whole -/

/-- A grid that fits its fields. -/
structure Storable (r : Grid) : Prop where
  extent : r.extent.Storable
  bands : r.bands < 2 ^ 32

/-- The number of samples of all pixels and bands. -/
def needed (r : Grid) : ℕ := r.extent.width * r.extent.height * r.bands

/-- A grid of some bands, with as many samples as are counted for it. -/
structure Whole (w : Words) (r : Grid) : Prop extends Storable r where
  bands_pos : 0 < r.bands
  count : sampleCount w r.extent r.bands = some r.data.size

private theorem sampleCount_eq_some_iff {n : ℕ} :
    sampleCount w extent bands = some n ↔
      n = extent.width * extent.height * bands % 2 ^ 64 ∧
        (w = .checked → extent.width * extent.height * bands < 2 ^ 64) :=
  Words.unsigned_eq_some_iff

private theorem ofData_eq_ok_iff :
    ofData w extent bands data = some (.ok r) ↔
      0 < bands ∧ sampleCount w extent bands = some data.size ∧ r = ⟨extent, bands, data⟩ := by
  rw [ofData]
  by_cases hbands : bands = 0
  · simp [hbands]
  · rw [if_neg hbands]
    cases sampleCount w extent bands with
    | none => simp
    | some n =>
      by_cases hsize : data.size = n
      · simp [hsize, Nat.pos_of_ne_zero hbands, eq_comm]
      · simp [hsize, Ne.symm hsize]

private theorem ofData_eq_none_iff :
    ofData w extent bands data = none ↔ 0 < bands ∧ sampleCount w extent bands = none := by
  rw [ofData]
  by_cases hbands : bands = 0
  · simp [hbands]
  · simp [hbands, Nat.pos_of_ne_zero hbands]

private theorem whole_ofData (hextent : extent.Storable) (hbands : bands < 2 ^ 32)
    (h : ofData w extent bands data = some (.ok r)) : r.Whole w := by
  obtain ⟨hpos, hcount, rfl⟩ := ofData_eq_ok_iff.mp h
  exact ⟨⟨hextent, hbands⟩, hpos, hcount⟩

private theorem whole_filled {value : Float} (hextent : extent.Storable) (hbands : bands < 2 ^ 32)
    (h : filled w extent bands value = some (.ok r)) : r.Whole w := by
  rw [filled] at h
  split at h
  · cases h
  · next hpos =>
    obtain ⟨n, hcount, hr⟩ := Option.map_eq_some_iff.mp h
    cases hr
    refine ⟨⟨hextent, hbands⟩, Nat.pos_of_ne_zero hpos, ?_⟩
    rw [hcount, Array.size_replicate]

/-- Positions that wrap around can be too few or too many. -/
theorem whole_ofFunction {f : ℤ → ℤ → Float} (hextent : extent.Storable)
    (hfits : w = .wrapping → extent.Fits) (h : ofFunction w extent f = some r) : r.Whole w := by
  obtain ⟨positions, hpositions, rfl⟩ := Option.map_eq_some_iff.mp h
  obtain rfl : positions = extent.positions := by
    cases w with
    | checked => exact Extent.eq_of_positionsIn hpositions
    | wrapping => exact Option.some.inj (hpositions.symm.trans (hfits rfl).positionsIn_eq)
  have hpixels : extent.pixelCount < 2 ^ 32 * 2 ^ 32 :=
    Nat.mul_lt_mul'' hextent.width hextent.height
  have hcount : sampleCount w extent 1 = some extent.pixelCount := by
    rw [sampleCount, Nat.mul_one]
    exact Words.unsigned_of_lt hpixels
  refine ⟨⟨hextent, Nat.one_lt_two_pow (by decide)⟩, Nat.one_pos, hcount.trans ?_⟩
  rw [List.size_toArray, List.length_map, Extent.length_positions]

/-! ### Texts -/

theorem wellFormed_toJson (r : Grid) : r.toJson.WellFormed := by
  apply Json.wellFormed_record
  simp only [List.forall_mem_cons]
  refine ⟨r.extent.wellFormed_toJson, Json.wellFormed_ofInt _, .array fun j hj => ?_,
    List.forall_mem_nil _⟩
  obtain ⟨x, -, rfl⟩ := List.mem_map.mp hj
  exact Json.wellFormed_ofFloat x

/-- The grid with other samples at the same places. -/
def mapSamples (f : Float → Float) (r : Grid) : Grid := { r with data := r.data.map f }

/-- The grid with NaN for its infinite samples. -/
def withoutInfinities (r : Grid) : Grid := r.mapSamples Json.stored

/-- Every finite sample is read back from its text. -/
def Rereads (r : Grid) : Prop := ∀ x ∈ r.data, Json.Rereads x

private theorem mapSamples_congr {f g : Float → Float} (h : ∀ x ∈ r.data, f x = g x) :
    r.mapSamples f = r.mapSamples g := by
  simp only [mapSamples, Array.map_congr_left h]

private theorem withoutInfinities_eq (h : ∀ x ∈ r.data, x.isInf = false) :
    r.withoutInfinities = r := by
  have hsame : r.mapSamples Json.stored = r.mapSamples id :=
    mapSamples_congr fun x hx => Json.stored_eq (h x hx)
  rw [withoutInfinities, hsame, mapSamples, Array.map_id]

private theorem parts?_toJson (hr : r.Storable) :
    Raster.parts? r.toJson = some (r.extent, r.bands, r.data.map Json.reread) := by
  have hfields : r.toJson.fieldsOf? ["extent", "bands", "data"] =
      some [some r.extent.toJson, some (.ofNat r.bands),
        some (.array (r.data.toList.map .ofFloat))] :=
    Json.fieldsOf?_record (show ["extent", "bands", "data"].Nodup by decide)
  have hsamples : (r.data.toList.map Json.ofFloat).mapM Json.sample? =
      some (r.data.toList.map Json.reread) :=
    mapM_map_eq_some fun x _ => Json.sample?_ofFloat x
  rw [Raster.parts?, hfields]
  simp only [Extent.ofJson?_toJson hr.extent, Json.size?_ofNat hr.bands, hsamples]
  show some (r.extent, r.bands, (r.data.toList.map Json.reread).toArray) = _
  rw [← List.map_toArray, Array.toArray_toList]

/-- Reading a text puts the parts together as the constructor does. -/
theorem read_write (hr : r.Storable) :
    read w r.write = (ofData w r.extent r.bands (r.data.map Json.reread)).map Except.toOption := by
  rw [read, write, Json.read_compact r.wellFormed_toJson]
  simp only [ofJson?, parts?_toJson hr]

private theorem read_eq_some_iff {text : String} :
    read w text = some (some r) ↔ ∃ j extent bands data, Json.read text = some j ∧
      Raster.parts? j = some (extent, bands, data) ∧ ofData w extent bands data = some (.ok r) := by
  rw [read]
  cases Json.read text with
  | none => simp
  | some j =>
    simp only [ofJson?]
    cases hparts : Raster.parts? j with
    | none => simp [hparts]
    | some parts =>
      obtain ⟨extent, bands, data⟩ := parts
      cases hgrid : ofData w extent bands data with
      | none => simp [hparts, hgrid]
      | some result => cases result <;> simp [hparts, hgrid, Except.toOption]

private theorem whole_read {text : String} (h : read w text = some (some r)) :
    r.Whole w ∧ ∀ x ∈ r.data, x.isInf = false := by
  obtain ⟨j, extent, bands, data, -, hparts, hgrid⟩ := read_eq_some_iff.mp h
  obtain ⟨hextent, hbands, hfinite⟩ := Raster.storable_of_parts hparts
  refine ⟨whole_ofData hextent hbands hgrid, ?_⟩
  obtain ⟨-, -, rfl⟩ := ofData_eq_ok_iff.mp hgrid
  exact hfinite

theorem Whole.read_write (h : r.Whole w) :
    read w r.write = some (some (r.mapSamples Json.reread)) := by
  have hgrid : ofData w r.extent r.bands (r.data.map Json.reread) =
      some (.ok (r.mapSamples Json.reread)) :=
    ofData_eq_ok_iff.mpr ⟨h.bands_pos, by rw [Array.size_map, h.count], rfl⟩
  rw [Grid.read_write h.toStorable, hgrid]
  rfl

theorem Whole.read_write_of_rereads (h : r.Whole w) (hback : r.Rereads) :
    read w r.write = some (some r.withoutInfinities) := by
  rw [h.read_write, mapSamples_congr fun x hx => Json.reread_eq (hback x hx)]
  rfl

/-- Each sample is read from its own text. -/
theorem getD_reread (r : Grid) (i : ℕ) (h : Json.Rereads (r.data.getD i 0)) :
    (r.data.map Json.reread).getD i 0 = Json.stored (r.data.getD i 0) := by
  by_cases hi : i < r.data.size
  · have hget : (r.data.map Json.reread).getD i 0 = Json.reread (r.data.getD i 0) := by
      simp [Array.getD, hi]
    rw [hget, Json.reread_eq h]
  · have hzero : Json.stored 0 = 0 := by decide +kernel
    simp [Array.getD, hi, hzero]

/-- Where the count is exact, words make the raster that exact counting makes. -/
theorem ofData_grid_iff {r : Raster} (hsize : r.data.size < 2 ^ 64) :
    ofData w extent bands data = some (.ok r.grid) ↔
      (Raster.ofData extent bands data).toOption = some r := by
  rw [ofData_eq_ok_iff, Raster.ofData_eq_some_iff]
  constructor
  · rintro ⟨-, -, hgrid⟩
    cases hgrid
    exact ⟨rfl, rfl, rfl⟩
  · rintro ⟨rfl, rfl, rfl⟩
    refine ⟨r.bands_pos, ?_, rfl⟩
    rw [sampleCount, ← r.size_eq]
    exact Words.unsigned_of_lt hsize

private theorem read_grid_iff {text : String} {r : Raster} (hsize : r.data.size < 2 ^ 64) :
    read w text = some (some r.grid) ↔ Raster.read text = some r := by
  simp only [read_eq_some_iff, ofData_grid_iff hsize, Raster.read, Raster.ofJson?,
    Option.bind_eq_some_iff, Prod.exists]
  constructor
  · rintro ⟨j, extent, bands, data, hj, hparts, hr⟩
    exact ⟨j, hj, extent, bands, data, hparts, hr⟩
  · rintro ⟨j, hj, extent, bands, data, hparts, hr⟩
    exact ⟨j, extent, bands, data, hj, hparts, hr⟩

private theorem read_write_eq_none_iff (hr : r.Storable) :
    read w r.write = none ↔ w = .checked ∧ 2 ^ 64 ≤ r.needed := by
  rw [read_write hr, Option.map_eq_none_iff, ofData_eq_none_iff, sampleCount,
    Words.unsigned_eq_none_iff]
  refine ⟨And.right, fun h => ⟨Nat.pos_of_ne_zero fun hbands => ?_, h⟩⟩
  rw [needed, hbands, Nat.mul_zero] at h
  exact absurd h.2 (by decide)

private theorem exists_read_write_iff (hr : r.Storable) :
    (∃ r', read w r.write = some (some r')) ↔
      0 < r.bands ∧ r.data.size = r.needed % 2 ^ 64 ∧ (w = .checked → r.needed < 2 ^ 64) := by
  have hcount := @sampleCount_eq_some_iff w r.extent r.bands r.data.size
  constructor
  · rintro ⟨r', h⟩
    rw [read_write hr] at h
    obtain ⟨result, hresult, h⟩ := Option.map_eq_some_iff.mp h
    cases result with
    | error fault => cases h
    | ok r' =>
      obtain ⟨hpos, hsize, -⟩ := ofData_eq_ok_iff.mp hresult
      rw [Array.size_map] at hsize
      exact ⟨hpos, hcount.mp hsize⟩
  · rintro ⟨hpos, hsize⟩
    exact ⟨_, Whole.read_write ⟨hr, hpos, hcount.mpr hsize⟩⟩

/-- In words of either kind: the constructors make whole grids, at least where the last column and
row of a function's extent do not wrap around, and so does every text that is read. A whole grid has
some bands and, up to multiples of 2 to the 64, as many samples as pixels times bands; exactly as
many if the words stop or that number fits. Its text is always read, as a grid of the same extent
and bands. A sample stands in its place again if it is read back from its own text, and NaN stands
for an infinite one; if all finite samples are read back, the whole grid is, with NaN for its
infinities. What is read has no infinite sample and is read back as it is. The text of any grid
stops the program only if its samples cannot be counted, and is refused if there are no bands or
another number of samples. Finite samples are written as numbers, and those with a brief text are
read back. -/
theorem text_round_trip (w : Words) :
    (∀ (extent : Extent) (bands : ℕ) (value : Float) (r : Grid), extent.Storable → bands < 2 ^ 32 →
      filled w extent bands value = some (.ok r) → r.Whole w) ∧
    (∀ (extent : Extent) (bands : ℕ) (data : Array Float) (r : Grid), extent.Storable →
      bands < 2 ^ 32 → ofData w extent bands data = some (.ok r) → r.Whole w) ∧
    (∀ (extent : Extent) (f : ℤ → ℤ → Float) (r : Grid), extent.Storable →
      (w = .wrapping → extent.Fits) → ofFunction w extent f = some r → r.Whole w) ∧
    (∀ (text : String) (r : Grid), read w text = some (some r) →
      r.Whole w ∧ (∀ x ∈ r.data, x.isInf = false) ∧
      (r.Rereads → read w r.write = some (some r))) ∧
    (∀ r : Grid, r.Whole w →
      (0 < r.bands ∧ r.data.size = r.needed % 2 ^ 64 ∧
        (w = .checked ∨ r.needed < 2 ^ 64 → r.data.size = r.needed)) ∧
      (∃ r', read w r.write = some (some r') ∧ r'.extent = r.extent ∧ r'.bands = r.bands ∧
        r'.data.size = r.data.size ∧
        ∀ i, Json.Rereads (r.data.getD i 0) → r'.data.getD i 0 = Json.stored (r.data.getD i 0)) ∧
      (r.Rereads → read w r.write = some (some r.withoutInfinities))) ∧
    (∀ r : Grid, r.Storable →
      (read w r.write = none ↔ w = .checked ∧ 2 ^ 64 ≤ r.needed) ∧
      ((∃ r', read w r.write = some (some r')) ↔
        0 < r.bands ∧ r.data.size = r.needed % 2 ^ 64 ∧ (w = .checked → r.needed < 2 ^ 64))) ∧
    (∀ (text : String) (r : Raster), r.data.size < 2 ^ 64 →
      (read w text = some (some r.grid) ↔ Raster.read text = some r)) ∧
    (∀ x : Float, x.isFinite = true →
      ∃ literal, Json.ofFloat x = .number literal ∧ Json.isLiteral literal = true) ∧
    (∀ x : Float, (Json.ofFloat x).isBrief = true → Json.Rereads x) := by
  refine ⟨fun _ _ _ _ => whole_filled, fun _ _ _ _ => whole_ofData,
    fun _ _ _ => whole_ofFunction, ?_, ?_, ?_, fun _ _ => read_grid_iff, ?_,
    fun x hbrief _ => Json.float?_of_isBrief hbrief⟩
  · intro text r h
    obtain ⟨hwhole, hfinite⟩ := whole_read h
    refine ⟨hwhole, hfinite, fun hback => ?_⟩
    rw [hwhole.read_write_of_rereads hback, withoutInfinities_eq hfinite]
  · intro r h
    obtain ⟨hsize, hcount⟩ := sampleCount_eq_some_iff.mp h.count
    refine ⟨⟨h.bands_pos, hsize, fun hexact => ?_⟩, ?_, h.read_write_of_rereads⟩
    · rw [hsize, Nat.mod_eq_of_lt (hexact.elim hcount id)]
      rfl
    · exact ⟨_, h.read_write, rfl, rfl, Array.size_map, r.getD_reread⟩
  · exact fun r hr => ⟨read_write_eq_none_iff hr, exists_read_write_iff hr⟩
  · intro x hx
    obtain ⟨literal, hnumber, hliteral, -⟩ := Json.ofFloat_of_finite hx
    exact ⟨literal, hnumber, hliteral⟩

/-- Four samples that are written in four ways. -/
def mixed : Grid where
  extent := ⟨-3, 7, 2, 2⟩
  bands := 1
  data := #[1, -2.5, Binary.toFloat .nan, Binary.toFloat (.infinite true)]

theorem mixed_text_round_trip :
    mixed.Whole .wrapping ∧ mixed.Rereads ∧
      read .wrapping mixed.write = some (some mixed.withoutInfinities) := by
  have hwhole : mixed.Whole .wrapping :=
    ⟨⟨⟨⟨by decide, by decide⟩, ⟨by decide, by decide⟩, by decide, by decide⟩, by decide⟩, by decide,
      rfl⟩
  have hback : mixed.Rereads := by
    intro x hx
    simp only [mixed, List.mem_toArray, List.mem_cons, List.not_mem_nil, or_false] at hx
    rw [Json.Rereads]
    obtain rfl | rfl | rfl | rfl := hx <;> decide +kernel
  obtain ⟨-, -, -, -, hround, -⟩ := text_round_trip .wrapping
  exact ⟨hwhole, hback, (hround mixed hwhole).2.2 hback⟩

/-- The digits are moved in two steps that round, so a large whole number can come back as its
neighbour. -/
example : (Json.ofFloat 9007199254740991).float? = some 9007199254740990 := by decide +kernel

/-- No samples for an extent and bands that need 2 to the 64 of them. -/
def uncounted : Grid := ⟨.sized (2 ^ 31) (2 ^ 31), 4, #[]⟩

/-- The text of no samples stops the program, or it is read, though samples are missing. Then the
first of them stops the program. -/
theorem uncounted_text_stops :
    uncounted.write = "\x7b\"extent\":\x7b\"min_x\":0,\"min_y\":0,\"width\":2147483648," ++
      "\"height\":2147483648\x7d,\"bands\":4,\"data\":[]\x7d" ∧
    uncounted.data.size = 0 ∧ uncounted.needed = 2 ^ 64 ∧
    read .checked uncounted.write = none ∧
    read .wrapping uncounted.write = some (some uncounted) ∧
    uncounted.extent.contains 0 0 = true ∧ uncounted.sample .wrapping 0 0 0 = none := by
  have hstorable : uncounted.Storable :=
    ⟨⟨⟨by decide, by decide⟩, ⟨by decide, by decide⟩, by decide, by decide⟩, by decide⟩
  have hwhole : uncounted.Whole .wrapping := ⟨hstorable, by decide, rfl⟩
  have hback : read .wrapping uncounted.write = some (some uncounted) := by
    rw [hwhole.read_write]
    simp [mapSamples, uncounted]
  refine ⟨by decide +kernel, rfl, by decide, ?_, hback, rfl, rfl⟩
  exact (read_write_eq_none_iff hstorable).mpr ⟨rfl, by decide⟩

end Grid

end RasterScript
