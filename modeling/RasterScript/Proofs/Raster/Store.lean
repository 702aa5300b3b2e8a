import RasterScript.Proofs.Raster.Places

/-! Rasters as stores: after any changes a sample is the value that was last put there, and a
change that was refused leaves no trace. -/
namespace RasterScript.Raster

variable {r : Raster} {x y : Int} {band i : Nat}

/-! ### One sample -/

theorem sample_of_contains (hband : band < r.bands) (hin : r.extent.contains x y) :
    ∃ v, r.sample x y band = .ok v := by
  rw [sample, index, if_pos hin, if_pos hband]
  exact ⟨_, rfl⟩

theorem sample_of_not_contains (hout : ¬r.extent.contains x y) :
    r.sample x y band = .error (.outOfBounds x y) := by
  rw [sample, index, if_neg hout]
  rfl

private theorem index_put (value : Float) : (r.put i value).index x y band = r.index x y band := rfl

theorem sample_put_self (h : r.index x y band = .ok i) (value : Float) :
    (r.put i value).sample x y band = .ok value := by
  rw [sample, index_put, h]
  show Except.ok ((r.data.setIfInBounds i value).getD i 0) = _
  simp [Array.getD_eq_getD_getElem?, index_lt h]

theorem sample_put_of_ne (h : r.index x y band ≠ .ok i) (value : Float) :
    (r.put i value).sample x y band = r.sample x y band := by
  rw [sample, sample, index_put]
  cases hj : r.index x y band with
  | error f => rfl
  | ok j =>
    have hij : i ≠ j := fun heq => h (heq ▸ hj)
    show Except.ok ((r.data.setIfInBounds i value).getD j 0) = .ok (r.data.getD j 0)
    simp [Array.getD_eq_getD_getElem?, Array.getElem?_setIfInBounds_ne hij]

private theorem sample_filled {extent : Extent} {bands : Nat} (hbands : 0 < bands) (value : Float) :
    ∃ r, filled extent bands value = .ok r ∧ r.extent = extent ∧ r.bands = bands ∧
      ∀ x y, extent.contains x y → ∀ band < bands, r.sample x y band = .ok value := by
  rw [filled, dif_pos hbands]
  refine ⟨_, rfl, rfl, rfl, fun x y hin band hband => ?_⟩
  obtain ⟨i, hi⟩ := (exists_index_iff (r := ⟨extent, bands, .replicate _ value, hbands,
    Array.size_replicate⟩)).mpr ⟨hin, hband⟩
  have hlt := index_lt hi
  rw [Array.size_replicate] at hlt
  rw [sample, hi]
  simp [Except.map, Array.getD_eq_getD_getElem?, hlt]

private theorem sample_ofFunction {extent : Extent} (f : Int → Int → Float)
    (hin : extent.contains x y) : (ofFunction extent f).sample x y 0 = .ok (f x y) := by
  obtain ⟨k, hk⟩ := List.mem_iff_getElem?.mp (Extent.mem_positions.mpr hin)
  have hindex : (ofFunction extent f).index x y 0 = .ok (k * 1 + 0) :=
    index_of_position hk Nat.one_pos
  rw [sample, hindex]
  simp [ofFunction, Except.map, Array.getD_eq_getD_getElem?, hk]

/-! ### A history of changes -/

/-- A value for the sample of a pixel and band. -/
structure Change where
  x : Int
  y : Int
  band : Nat
  value : Float

/-- Ask for a change. A raster that refuses it stays as it is. -/
def change (r : Raster) (c : Change) : Raster × Except Fault Unit :=
  match r.set c.x c.y c.band c.value with
  | .ok changed => (changed, .ok ())
  | .error f => (r, .error f)

/-- Ask for changes in turn, with the answer to each. -/
def changes (r : Raster) : List Change → Raster × List (Except Fault Unit)
  | [] => (r, [])
  | c :: cs =>
    let (changed, answer) := r.change c
    let (last, answers) := changed.changes cs
    (last, answer :: answers)

/-- The changes of a sample that went through, first to last. -/
def accepted (x y : Int) (band : Nat) (history : List (Change × Except Fault Unit)) :
    List Float :=
  history.filterMap fun (c, answer) =>
    if answer.isOk ∧ c.x = x ∧ c.y = y ∧ c.band = band then some c.value else none

variable {c : Change} {cs : List Change}

private theorem change_of_index (h : r.index c.x c.y c.band = .ok i) :
    r.change c = (r.put i c.value, .ok ()) := by
  rw [change, set, h]
  rfl

private theorem change_of_fault {f : Fault} (h : r.index c.x c.y c.band = .error f) :
    r.change c = (r, .error f) := by
  rw [change, set, h]
  rfl

private theorem index_change : (r.change c).1.index x y band = r.index x y band := by
  cases h : r.index c.x c.y c.band with
  | ok i => rw [change_of_index h, index_put]
  | error f => rw [change_of_fault h]

private theorem answer_change : (r.change c).2 = (r.index c.x c.y c.band).map fun _ => () := by
  cases h : r.index c.x c.y c.band with
  | ok i => rw [change_of_index h]; rfl
  | error f => rw [change_of_fault h]; rfl

private theorem sample_change (x y : Int) (band : Nat) :
    (r.change c).1.sample x y band =
      if (r.change c).2.isOk ∧ c.x = x ∧ c.y = y ∧ c.band = band then .ok c.value
      else r.sample x y band := by
  cases h : r.index c.x c.y c.band with
  | error f =>
    rw [change_of_fault h, if_neg]
    rintro ⟨⟨⟩, -⟩
  | ok i =>
    rw [change_of_index h]
    by_cases hsame : c.x = x ∧ c.y = y ∧ c.band = band
    · rw [if_pos ⟨rfl, hsame⟩]
      obtain ⟨rfl, rfl, rfl⟩ := hsame
      exact sample_put_self h c.value
    · rw [if_neg fun hall => hsame hall.2]
      exact sample_put_of_ne (fun hi => hsame (index_inj h hi)) c.value

private theorem accepted_cons {answer : Except Fault Unit}
    {history : List (Change × Except Fault Unit)} : accepted x y band ((c, answer) :: history) =
      if answer.isOk ∧ c.x = x ∧ c.y = y ∧ c.band = band then
        c.value :: accepted x y band history
      else accepted x y band history := by
  rw [accepted, List.filterMap_cons]
  by_cases h : answer.isOk ∧ c.x = x ∧ c.y = y ∧ c.band = band
  · simp only [if_pos h]
    rfl
  · simp only [if_neg h]
    rfl

private theorem changes_cons : r.changes (c :: cs) =
    (((r.change c).1.changes cs).1, (r.change c).2 :: ((r.change c).1.changes cs).2) := rfl

/-- Whether a change goes through depends on its place only. -/
theorem answers_changes (r : Raster) (cs : List Change) :
    (r.changes cs).2 = cs.map fun c => (r.index c.x c.y c.band).map fun _ => () := by
  induction cs generalizing r with
  | nil => rfl
  | cons c cs ih => simp only [changes_cons, List.map_cons, answer_change, ih, index_change]

/-- The last change that went through decides. -/
theorem sample_changes (r : Raster) (cs : List Change) (x y : Int) (band : Nat) :
    (r.changes cs).1.sample x y band =
      ((accepted x y band (cs.zip (r.changes cs).2)).getLast?).elim (r.sample x y band) .ok := by
  induction cs generalizing r with
  | nil => rfl
  | cons c cs ih =>
    rw [changes_cons, ih, sample_change, List.zip_cons_cons, accepted_cons]
    split
    · rw [List.getLast?_cons]
      cases (accepted x y band _).getLast? <;> rfl
    · rfl

/-- Changes that were refused leave no trace. -/
theorem changes_filter (r : Raster) (cs : List Change) :
    (r.changes cs).1 = (r.changes (cs.filter fun c => (r.index c.x c.y c.band).isOk)).1 := by
  induction cs generalizing r with
  | nil => rfl
  | cons c cs ih =>
    rw [changes_cons, ih, List.filter_cons]
    simp only [index_change]
    cases h : r.index c.x c.y c.band with
    | ok i => rfl
    | error f => rw [change_of_fault h]; rfl

/-- An extent lists the pixels it contains, row by row and each once. A raster keeps the bands of
its pixels in that order, one place for each sample, so after any changes a sample is the value
last put there or else what it was. A new raster holds what it was made of. -/
theorem faithful_store :
    (∀ e : Extent, (∀ x y, (x, y) ∈ e.positions ↔ e.contains x y) ∧ e.positions.Nodup ∧
      e.positions.Pairwise Extent.Before ∧ e.positions.length = e.pixelCount) ∧
    (∀ r : Raster,
      (∀ k x y, r.extent.positions[k]? = some (x, y) → ∀ band < r.bands,
        r.index x y band = .ok (k * r.bands + band)) ∧
      (∀ x y band,
        (∃ i, r.index x y band = .ok i) ↔ (x, y) ∈ r.extent.positions ∧ band < r.bands) ∧
      (∀ i, i < r.data.size ↔ ∃! p : (Int × Int) × Nat, r.index p.1.1 p.1.2 p.2 = .ok i) ∧
      ∀ cs,
        (r.changes cs).2 = (cs.map fun c => (r.index c.x c.y c.band).map fun _ => ()) ∧
        (∀ x y band, (r.changes cs).1.sample x y band =
          ((accepted x y band (cs.zip (r.changes cs).2)).getLast?).elim (r.sample x y band) .ok) ∧
        (r.changes cs).1 = (r.changes (cs.filter fun c => (r.index c.x c.y c.band).isOk)).1) ∧
    (∀ e bands value, 0 < bands →
      ∃ r, filled e bands value = .ok r ∧ r.extent = e ∧ r.bands = bands ∧
        ∀ x y, e.contains x y → ∀ band < bands, r.sample x y band = .ok value) ∧
    ∀ e f x y, e.contains x y → (ofFunction e f).sample x y 0 = .ok (f x y) := by
  refine ⟨fun e => ⟨fun x y => Extent.mem_positions, e.nodup_positions, e.positions_ascend,
    Extent.length_positions e⟩, fun r => ⟨fun k x y hk band => index_of_position hk,
    fun x y band => ?_, fun i => lt_size_iff, fun cs => ⟨answers_changes r cs,
    sample_changes r cs, changes_filter r cs⟩⟩, fun e bands value hbands =>
    sample_filled hbands value, fun e f x y hin => sample_ofFunction f hin⟩
  rw [Extent.mem_positions]
  exact exists_index_iff

theorem faithful_store_small :
    (⟨-1, 2, 2, 1⟩ : Extent).positions[1]? = some (0, 2) ∧
    ∀ r, filled ⟨-1, 2, 2, 1⟩ 3 0.5 = .ok r → r.index 0 2 2 = .ok 5 ∧
      (r.changes [⟨0, 2, 2, 7⟩, ⟨9, 9, 0, 1⟩]).1.sample 0 2 2 = .ok 7 := by
  refine ⟨by decide, ?_⟩
  rintro r ⟨⟩
  have hr := faithful_store.2.1 ⟨⟨-1, 2, 2, 1⟩, 3, .replicate 6 0.5, by decide, by decide⟩
  have hindex := hr.1 1 0 2 (by decide) 2 (by decide)
  refine ⟨hindex, ?_⟩
  exact ((hr.2.2.2 _).2.1 0 2 2).trans rfl

end RasterScript.Raster
