import Mathlib.Logic.ExistsUnique
import RasterScript.Raster

/-! Pixels and the places of their samples: the order in which an extent lists its pixels is the
order in which a raster keeps them. -/
namespace RasterScript

namespace Extent

/-- The order of pixels: row by row, each row from left to right. -/
def Before (p q : Int × Int) : Prop := p.2 < q.2 ∨ p.2 = q.2 ∧ p.1 < q.1

theorem contains_iff {e : Extent} {x y : Int} :
    e.contains x y ↔
      (e.minX ≤ x ∧ x < e.minX + e.width) ∧ (e.minY ≤ y ∧ y < e.minY + e.height) := by
  simp only [contains, Bool.and_eq_true, decide_eq_true_eq]
  rw [maxX, maxY]
  omega

theorem mem_positions {e : Extent} {x y : Int} : (x, y) ∈ e.positions ↔ e.contains x y := by
  rw [contains_iff]
  simp only [positions, List.mem_flatMap, List.mem_range, List.mem_map, Prod.mk.injEq]
  constructor
  · rintro ⟨row, hrow, column, hcolumn, rfl, rfl⟩
    omega
  · intro h
    exact ⟨(y - e.minY).toNat, by omega, (x - e.minX).toNat, by omega, by omega, by omega⟩

theorem positions_ascend (e : Extent) : e.positions.Pairwise Before := by
  rw [positions, List.pairwise_flatMap]
  constructor
  · intro row _
    rw [List.pairwise_map]
    refine List.pairwise_lt_range.imp fun {a b} hab => ?_
    exact .inr ⟨rfl, by show e.minX + (a : Int) < e.minX + b; omega⟩
  · refine List.pairwise_lt_range.imp fun {a b} hab p hp q hq => ?_
    obtain ⟨_, -, rfl⟩ := List.mem_map.mp hp
    obtain ⟨_, -, rfl⟩ := List.mem_map.mp hq
    exact .inl (by show e.minY + (a : Int) < e.minY + b; omega)

theorem nodup_positions (e : Extent) : e.positions.Nodup := by
  refine e.positions_ascend.imp fun {p q} h => ?_
  rintro rfl
  rcases h with h | ⟨-, h⟩
  · exact absurd h (Int.lt_irrefl _)
  · exact absurd h (Int.lt_irrefl _)

/-- Row and column of an item in rows of one length. -/
theorem getElem?_rows {α : Type} (f : Nat → Nat → α) (width height : Nat) {k : Nat}
    (hk : k < width * height) :
    ((List.range height).flatMap fun row => (List.range width).map (f row))[k]? =
      some (f (k / width) (k % width)) := by
  induction height with
  | zero => exact absurd hk (Nat.not_lt_zero k)
  | succ height ih =>
    have hlength : ((List.range height).flatMap fun row =>
        (List.range width).map (f row)).length = width * height := by
      simp only [List.length_flatMap, List.length_map, List.length_range, List.map_const',
        List.sum_replicate_nat, Nat.mul_comm]
    rw [List.range_succ, List.flatMap_append, List.flatMap_singleton]
    rcases Nat.lt_or_ge k (width * height) with hlt | hge
    · rw [List.getElem?_append_left (hlength ▸ hlt), ih hlt]
    · rw [List.getElem?_append_right (hlength ▸ hge), hlength]
      -- The item stands in the last row.
      obtain ⟨column, rfl⟩ := Nat.exists_eq_add_of_le hge
      have hcolumn : column < width := by
        rw [Nat.mul_succ] at hk
        exact Nat.lt_of_add_lt_add_left hk
      have hpos : 0 < width := Nat.zero_lt_of_lt hcolumn
      rw [Nat.add_sub_cancel_left, List.getElem?_map, List.getElem?_range hcolumn,
        Nat.mul_add_div hpos, Nat.div_eq_of_lt hcolumn, Nat.mul_add_mod, Nat.mod_eq_of_lt hcolumn]
      rfl

theorem getElem?_positions {e : Extent} {k : Nat} (hk : k < e.pixelCount) :
    e.positions[k]? = some (e.minX + (k % e.width : Nat), e.minY + (k / e.width : Nat)) :=
  getElem?_rows (fun row column => (e.minX + (column : Int), e.minY + (row : Int))) e.width e.height hk

end Extent

private theorem mul_add_inj {n a b c d : Nat} (hb : b < n) (hd : d < n)
    (h : a * n + b = c * n + d) : a = c ∧ b = d := by
  have hbd : b = d := by
    calc b = (a * n + b) % n := by rw [Nat.mul_add_mod_self_right, Nat.mod_eq_of_lt hb]
      _ = (c * n + d) % n := by rw [h]
      _ = d := by rw [Nat.mul_add_mod_self_right, Nat.mod_eq_of_lt hd]
  subst hbd
  have hn : 0 < n := Nat.zero_lt_of_lt hb
  exact ⟨Nat.eq_of_mul_eq_mul_right hn (Nat.add_right_cancel h), rfl⟩

namespace Raster

variable {r : Raster} {x y x' y' : Int} {band band' i : Nat}

theorem index_eq_ok (h : r.index x y band = .ok i) :
    r.extent.contains x y ∧ band < r.bands ∧
      i = ((y - r.extent.minY).toNat * r.extent.width + (x - r.extent.minX).toNat) * r.bands +
        band := by
  rw [index] at h
  split at h
  · next hin =>
    split at h
    · next hband => exact ⟨hin, hband, (Except.ok.inj h).symm⟩
    · cases h
  · cases h

theorem exists_index_iff : (∃ i, r.index x y band = .ok i) ↔ r.extent.contains x y ∧ band < r.bands := by
  constructor
  · rintro ⟨i, hi⟩
    obtain ⟨hin, hband, -⟩ := index_eq_ok hi
    exact ⟨hin, hband⟩
  · rintro ⟨hin, hband⟩
    rw [index, if_pos hin, if_pos hband]
    exact ⟨_, rfl⟩

/-- Different samples have different places. -/
theorem index_inj (h : r.index x y band = .ok i) (h' : r.index x' y' band' = .ok i) :
    x = x' ∧ y = y' ∧ band = band' := by
  obtain ⟨hin, hband, hi⟩ := index_eq_ok h
  obtain ⟨hin', hband', hi'⟩ := index_eq_ok h'
  obtain ⟨hx, hy⟩ := Extent.contains_iff.mp hin
  obtain ⟨hx', hy'⟩ := Extent.contains_iff.mp hin'
  obtain ⟨hpixel, hb⟩ := mul_add_inj hband hband' (hi.symm.trans hi')
  obtain ⟨hrow, hcolumn⟩ := mul_add_inj (by omega) (by omega) hpixel
  omega

theorem index_lt (h : r.index x y band = .ok i) : i < r.data.size := by
  obtain ⟨hin, hband, hi⟩ := index_eq_ok h
  obtain ⟨hx, hy⟩ := Extent.contains_iff.mp hin
  have hcolumn : (x - r.extent.minX).toNat < r.extent.width := by omega
  have hrow : (y - r.extent.minY).toNat < r.extent.height := by omega
  have hpixel : (y - r.extent.minY).toNat * r.extent.width + (x - r.extent.minX).toNat <
      r.extent.pixelCount := by
    rw [Extent.pixelCount, Nat.mul_comm r.extent.width]
    calc _ < ((y - r.extent.minY).toNat + 1) * r.extent.width := by rw [Nat.succ_mul]; omega
      _ ≤ _ := Nat.mul_le_mul_right _ hrow
  rw [hi, r.size_eq]
  calc _ < (((y - r.extent.minY).toNat * r.extent.width + (x - r.extent.minX).toNat) + 1) *
        r.bands := by rw [Nat.succ_mul]; omega
    _ ≤ _ := Nat.mul_le_mul_right _ hpixel

/-- The samples of the pixel that stands at a number among all pixels. -/
theorem index_of_position {k : Nat} (hk : r.extent.positions[k]? = some (x, y))
    (hband : band < r.bands) : r.index x y band = .ok (k * r.bands + band) := by
  have hlt : k < r.extent.pixelCount := by
    rw [← Extent.length_positions]
    exact (List.getElem?_eq_some_iff.mp hk).1
  have hin := Extent.mem_positions.mp (List.mem_of_getElem? hk)
  rw [Extent.getElem?_positions hlt] at hk
  obtain ⟨rfl, rfl⟩ := Prod.mk.inj (Option.some.inj hk)
  have hoffset (least : Int) (offset : Nat) : (least + offset - least).toNat = offset := by omega
  simp only [index, if_pos hin, if_pos hband, hoffset, Nat.div_add_mod']

/-- Every place of the data belongs to one sample. -/
theorem lt_size_iff : i < r.data.size ↔ ∃! p : (Int × Int) × Nat, r.index p.1.1 p.1.2 p.2 = .ok i := by
  constructor
  · intro hi
    rw [r.size_eq] at hi
    have hpixel : i / r.bands < r.extent.pixelCount := Nat.div_lt_of_lt_mul (Nat.mul_comm _ _ ▸ hi)
    have hindex := index_of_position (Extent.getElem?_positions hpixel) (Nat.mod_lt i r.bands_pos)
    rw [Nat.div_add_mod'] at hindex
    refine ⟨((_, _), _), hindex, fun q hq => ?_⟩
    obtain ⟨hx, hy, hband⟩ := index_inj hq hindex
    exact Prod.ext (Prod.ext hx hy) hband
  · rintro ⟨p, hp, -⟩
    exact index_lt hp

end Raster

end RasterScript
