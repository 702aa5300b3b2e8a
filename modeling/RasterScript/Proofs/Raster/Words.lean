import Mathlib
import RasterScript.Proofs.Number.Order
import RasterScript.Proofs.Raster.Places
import RasterScript.Raster.Grid

/-! Machine words against exact results. Where every result fits in a word, words that stop and
words that wrap around both give the exact one. -/
namespace RasterScript

open Number (IsWord twoTo)

theorem mapM_map_eq_some {α β γ : Type} {f : α → β} {g : β → Option γ} {h : α → γ} {l : List α}
    (hg : ∀ a ∈ l, g (f a) = some (h a)) : (l.map f).mapM g = some (l.map h) := by
  induction l with
  | nil => rfl
  | cons a l ih =>
    rw [List.map_cons, List.mapM_cons, hg a List.mem_cons_self,
      ih fun b hb => hg b (List.mem_cons_of_mem a hb)]
    rfl

namespace Words

variable {w : Words}

theorem twoTo_63 : ((twoTo 63 : ℕ) : ℤ) = 2 ^ 63 := rfl

theorem twoTo_64 : ((twoTo 64 : ℕ) : ℤ) = 2 ^ 64 := rfl

theorem signed_of_isWord {n : ℤ} (h : IsWord n) : w.signed n = some n := by
  unfold signed
  rw [twoTo_63, if_pos]
  exact Bool.and_eq_true_iff.mpr ⟨decide_eq_true h.1, decide_eq_true h.2⟩

theorem isWord_of_checked {n k : ℤ} (h : signed .checked n = some k) : IsWord n ∧ k = n := by
  unfold signed at h
  rw [twoTo_63] at h
  split at h
  · next hn =>
    obtain ⟨hlow, hhigh⟩ := Bool.and_eq_true_iff.mp hn
    exact ⟨⟨of_decide_eq_true hlow, of_decide_eq_true hhigh⟩, (Option.some.inj h).symm⟩
  · cases h

theorem unsigned_of_lt {n : ℕ} (h : n < 2 ^ 64) : w.unsigned n = some n := truncated_of_lt h

theorem unsigned_eq_some_iff {n k : ℕ} :
    w.unsigned n = some k ↔ k = n % 2 ^ 64 ∧ (w = .checked → n < 2 ^ 64) :=
  truncated_eq_some_iff

theorem unsigned_eq_none_iff {n : ℕ} :
    w.unsigned n = none ↔ w = .checked ∧ 2 ^ 64 ≤ n := by
  rw [Option.eq_none_iff_forall_ne_some]
  constructor
  · intro h
    by_contra hexact
    refine h _ (unsigned_eq_some_iff.mpr ⟨rfl, fun hw => ?_⟩)
    exact Nat.not_le.mp fun hlarge => hexact ⟨hw, hlarge⟩
  · rintro ⟨hw, hlarge⟩ k hk
    exact Nat.not_le.mpr ((unsigned_eq_some_iff.mp hk).2 hw) hlarge

end Words

namespace Extent

variable {e : Extent} {w : Words}

/-- An extent that fits its fields: corners of 64 bits and sizes of 32. -/
structure Storable (e : Extent) : Prop where
  minX : IsWord e.minX
  minY : IsWord e.minY
  width : e.width < 2 ^ 32
  height : e.height < 2 ^ 32

/-- An extent whose last column and row can be computed: the ends fit in words, and so do the pixels
before them. -/
structure Fits (e : Extent) : Prop extends Storable e where
  endX : IsWord (e.minX + e.width)
  endY : IsWord (e.minY + e.height)
  maxX : IsWord e.maxX
  maxY : IsWord e.maxY

/-- So does every extent that lies well within words. -/
theorem fits_of_near (hx : e.minX.natAbs < 2 ^ 62) (hy : e.minY.natAbs < 2 ^ 62)
    (hwidth : e.width < 2 ^ 32) (hheight : e.height < 2 ^ 32) : e.Fits where
  minX := ⟨by omega, by omega⟩
  minY := ⟨by omega, by omega⟩
  width := hwidth
  height := hheight
  endX := ⟨by omega, by omega⟩
  endY := ⟨by omega, by omega⟩
  maxX := ⟨by rw [Extent.maxX]; omega, by rw [Extent.maxX]; omega⟩
  maxY := ⟨by rw [Extent.maxY]; omega, by rw [Extent.maxY]; omega⟩

private theorem lastIn_eq {start : ℤ} {size : ℕ} (hend : IsWord (start + size))
    (hlast : IsWord (start + size - 1)) : lastIn w start size = some (start + size - 1) := by
  rw [lastIn, Words.signed_of_isWord hend, Option.bind_eq_bind, Option.bind_some,
    Words.signed_of_isWord hlast]

/-- Words that stop are never wrong. -/
theorem eq_of_lastIn {start last : ℤ} {size : ℕ} (h : lastIn .checked start size = some last) :
    last = start + size - 1 := by
  obtain ⟨stop, hstop, hlast⟩ := Option.bind_eq_some_iff.mp h
  obtain ⟨-, rfl⟩ := Words.isWord_of_checked hstop
  exact (Words.isWord_of_checked hlast).2

theorem Fits.maxXIn_eq (h : e.Fits) : e.maxXIn w = some e.maxX := lastIn_eq h.endX h.maxX

theorem Fits.maxYIn_eq (h : e.Fits) : e.maxYIn w = some e.maxY := lastIn_eq h.endY h.maxY

private theorem axis_eq (start : ℤ) (size : ℕ) :
    axis start (start + size - 1) = (List.range size).map fun (k : ℕ) => start + k := by
  rw [axis, show start + size - 1 - start + 1 = (size : ℤ) by ring, Int.toNat_natCast]

private theorem rowIn_eq (h : e.maxXIn w = some e.maxX) (y : ℤ) :
    e.rowIn w y = some ((List.range e.width).map fun (column : ℕ) => (e.minX + (column : ℤ), y)) := by
  rw [rowIn, h, Option.map_some, maxX, axis_eq, List.map_map]
  rfl

theorem positionsIn_eq (hrows : e.maxYIn w = some e.maxY)
    (hcolumns : e.height ≠ 0 → e.maxXIn w = some e.maxX) :
    e.positionsIn w = some e.positions := by
  have hall : (axis e.minY e.maxY).mapM (e.rowIn w) = some ((List.range e.height).map fun row : ℕ =>
      (List.range e.width).map fun (column : ℕ) => (e.minX + (column : ℤ), e.minY + (row : ℤ))) := by
    rw [maxY, axis_eq]
    refine mapM_map_eq_some fun row hrow => ?_
    exact rowIn_eq (hcolumns (Nat.ne_zero_of_lt (List.mem_range.mp hrow))) _
  rw [positionsIn, hrows, Option.bind_eq_bind, Option.bind_some, hall]
  rfl

theorem Fits.positionsIn_eq (h : e.Fits) : e.positionsIn w = some e.positions :=
  Extent.positionsIn_eq h.maxYIn_eq fun _ => h.maxXIn_eq

theorem eq_of_positionsIn {ps : List (ℤ × ℤ)} (h : e.positionsIn .checked = some ps) :
    ps = e.positions := by
  obtain ⟨maxY, hrows, hall⟩ := Option.bind_eq_some_iff.mp h
  obtain rfl : maxY = e.maxY := eq_of_lastIn hrows
  refine Option.some.inj (h.symm.trans (positionsIn_eq hrows fun hheight => ?_))
  cases hcolumns : e.maxXIn .checked with
  | some last => exact congrArg some (eq_of_lastIn hcolumns)
  | none =>
    -- The first of the rows would have stopped.
    obtain ⟨n, hn⟩ := Nat.exists_eq_succ_of_ne_zero hheight
    rw [maxY, axis_eq, hn, List.range_succ_eq_map, List.map_cons, List.mapM_cons,
      rowIn, hcolumns] at hall
    cases hall

end Extent

namespace Raster

variable {w : Words} {r : Raster}

/-- A raster whose samples machine words can find. -/
structure Fits (r : Raster) : Prop where
  extent : r.extent.Fits
  size : r.data.size < 2 ^ 64

end Raster

end RasterScript
