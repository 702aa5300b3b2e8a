import Mathlib.Data.List.DropRight
import Mathlib.Data.List.GetD
import RasterScript.Proofs.Token.Lexemes
import RasterScript.Text.Position

/-! Lines and columns are exact: the line of an offset counts the line ends before it, the column
the characters after the last of these. -/
namespace RasterScript.Text

open Token (byteLength byteLength_append byteLength_pos byteLength_toList)

/-! ### Halving -/

/-- Halving finds the index that parts those that have a property from those that have not. -/
theorem partitionPoint_eq {p : Nat → Bool} {low high k : Nat} (hlow : low ≤ k) (hhigh : k ≤ high)
    (hp : ∀ i < high, p i = true ↔ i < k) : partitionPoint p low high = k := by
  fun_induction partitionPoint p low high with
  | case1 low high hlt middle hmiddle ih =>
    have hbefore : middle < k := (hp middle (by omega)).mp hmiddle
    exact ih hbefore hhigh hp
  | case2 low high hlt middle hmiddle ih =>
    have hafter : ¬ middle < k := fun h => hmiddle ((hp middle (by omega)).mpr h)
    exact ih hlow (by omega) fun i hi => hp i (by omega)
  | case3 low high hge => omega

/-! ### Slices -/

section Slices

variable (cs ds : List Char)

private theorem dropBytes?_append : dropBytes? (cs ++ ds) (byteLength cs) = some ds := by
  induction cs with
  | nil => rw [List.nil_append, byteLength, dropBytes?]
  | cons c cs ih =>
    have hsize : byteLength (c :: cs) = c.utf8Size + byteLength cs := rfl
    obtain ⟨n, hn⟩ := Nat.exists_eq_add_one.mpr (byteLength_pos c cs)
    rw [List.cons_append, hn, dropBytes?, ← hn, hsize, if_neg (by omega), Nat.add_sub_cancel_left]
    exact ih

private theorem takeBytes?_append : takeBytes? (cs ++ ds) (byteLength cs) = some cs := by
  induction cs with
  | nil => rw [byteLength, takeBytes?]
  | cons c cs ih =>
    have hsize : byteLength (c :: cs) = c.utf8Size + byteLength cs := rfl
    obtain ⟨n, hn⟩ := Nat.exists_eq_add_one.mpr (byteLength_pos c cs)
    rw [List.cons_append, hn, takeBytes?, ← hn, hsize, if_neg (by omega), Nat.add_sub_cancel_left,
      ih]
    rfl

private theorem slice?_append (before : List Char) :
    slice? (before ++ (cs ++ ds)) (byteLength before) (byteLength (before ++ cs)) = some cs := by
  rw [slice?, byteLength_append, if_pos (Nat.le_add_right _ _), dropBytes?_append,
    Nat.add_sub_cancel_left]
  exact takeBytes?_append cs ds

end Slices

/-! ### Line starts -/

/-- Where lines start after the line ends of a text that begins at an offset. -/
def lineStarts (start : Nat) (cs : List Char) : List Nat :=
  ((charOffsets start cs).filter fun p => p.2 = '\n').map fun p => p.1 + 1

private theorem charOffsets_append (start : Nat) (cs ds : List Char) :
    charOffsets start (cs ++ ds) =
      charOffsets start cs ++ charOffsets (start + byteLength cs) ds := by
  induction cs generalizing start with
  | nil => rfl
  | cons c cs ih =>
    rw [List.cons_append, charOffsets, charOffsets, ih, byteLength, Nat.add_assoc,
      List.cons_append]

private theorem lineStarts_append (start : Nat) (cs ds : List Char) :
    lineStarts start (cs ++ ds) =
      lineStarts start cs ++ lineStarts (start + byteLength cs) ds := by
  rw [lineStarts, charOffsets_append, List.filter_append, List.map_append]
  rfl

private theorem lineStarts_newline (start : Nat) : lineStarts start ['\n'] = [start + 1] := rfl

private theorem lineStarts_singleton {c : Char} (hc : c ≠ '\n') (start : Nat) :
    lineStarts start [c] = [] := by
  simp [lineStarts, charOffsets, hc]

/-- Each line end starts a line. -/
theorem length_lineStarts (start : Nat) (cs : List Char) :
    (lineStarts start cs).length = cs.count '\n' := by
  induction cs generalizing start with
  | nil => rfl
  | cons c cs ih =>
    rw [← List.singleton_append, lineStarts_append, List.length_append, ih, List.count_append]
    by_cases hc : c = '\n'
    · subst hc
      rfl
    · rw [lineStarts_singleton hc, List.count_singleton, beq_false_of_ne hc]
      rfl

private theorem mem_lineStarts {start n : Nat} {cs : List Char} (h : n ∈ lineStarts start cs) :
    start < n ∧ n ≤ start + byteLength cs := by
  induction cs generalizing start with
  | nil => cases h
  | cons c cs ih =>
    have hpos := c.utf8Size_pos
    have hsize : byteLength (c :: cs) = c.utf8Size + byteLength cs := rfl
    rw [← List.singleton_append, lineStarts_append] at h
    rcases List.mem_append.mp h with h | h
    · by_cases hc : c = '\n'
      · subst hc
        have hn : n = start + 1 := List.mem_singleton.mp h
        omega
      · rw [lineStarts_singleton hc] at h
        cases h
    · obtain ⟨hlow, hhigh⟩ := ih h
      simp only [byteLength] at hlow hhigh
      omega

/-- The last line of a text starts after its last line end. -/
theorem getElem?_lineStarts (cs : List Char) :
    (0 :: lineStarts 0 cs)[cs.count '\n']? = some (byteLength (cs.rdropWhile (· ≠ '\n'))) := by
  induction cs using List.reverseRecOn with
  | nil => rfl
  | append_singleton cs c ih =>
    rw [lineStarts_append, ← List.cons_append, List.count_append]
    by_cases hc : c = '\n'
    · subst hc
      have hlength : (0 :: lineStarts 0 cs).length = cs.count '\n' + 1 :=
        congrArg (· + 1) (length_lineStarts 0 cs)
      rw [List.rdropWhile_concat_neg _ _ _ (by simp), byteLength_append, Nat.zero_add,
        lineStarts_newline, show ['\n'].count '\n' = 1 from rfl, ← hlength,
        List.getElem?_concat_length]
      rfl
    · have hcount : [c].count '\n' = 0 := List.count_eq_zero.mpr (by simpa using Ne.symm hc)
      rw [List.rdropWhile_concat_pos _ _ _ (by simpa using hc), lineStarts_singleton hc, hcount,
        List.append_nil, Nat.add_zero, ih]

/-! ### Positions -/

/-- The line and column that come after some characters. -/
def Position.after (cs : List Char) : Position :=
  ⟨1 + cs.count '\n', 1 + (cs.rtakeWhile (· ≠ '\n')).length⟩

/-- The lexicographic order. -/
def Position.Before (p q : Position) : Prop :=
  p.line < q.line ∨ p.line = q.line ∧ p.column < q.column

theorem Position.Before.ne {p q : Position} (h : p.Before q) : p ≠ q := by
  rintro rfl
  rcases h with h | ⟨-, h⟩
  · exact Nat.lt_irrefl _ h
  · exact Nat.lt_irrefl _ h

section Positions

variable {text : String} {before after : List Char}

@[simp] theorem text_ofText (text : String) : (LineIndex.ofText text).text = text := rfl

private theorem getD_starts (text : String) (i : Nat) :
    (LineIndex.ofText text).starts.getD i 0 = (0 :: lineStarts 0 text.toList).getD i 0 := by
  simp [LineIndex.ofText, lineStarts]

private theorem size_starts (text : String) :
    (LineIndex.ofText text).starts.size = text.toList.count '\n' + 1 := by
  rw [← length_lineStarts 0]
  simp [LineIndex.ofText, lineStarts]

/-- The lines that start at an offset or before it are those that the text up to it has begun. -/
theorem getD_lineStarts_le {i : Nat} (h : i < (before ++ after).count '\n' + 1) :
    (0 :: lineStarts 0 (before ++ after)).getD i 0 ≤ byteLength before ↔
      i < before.count '\n' + 1 := by
  have hbefore := length_lineStarts 0 before
  have hafter := length_lineStarts (0 + byteLength before) after
  cases i with
  | zero => simp
  | succ i =>
    rw [List.count_append] at h
    rw [lineStarts_append, List.getD_cons_succ]
    by_cases hi : i < (lineStarts 0 before).length
    · have hmem := mem_lineStarts (List.getElem_mem hi)
      rw [List.getD_append _ _ _ _ hi, List.getD_eq_getElem _ _ hi]
      omega
    · have hrest : i - (lineStarts 0 before).length <
          (lineStarts (0 + byteLength before) after).length := by omega
      have hmem := mem_lineStarts (List.getElem_mem hrest)
      rw [List.getD_append_right _ _ _ _ (by omega), List.getD_eq_getElem _ _ hrest]
      omega

private theorem partitionPoint_starts (h : text.toList = before ++ after) :
    partitionPoint (fun i => (LineIndex.ofText text).starts.getD i 0 ≤ byteLength before) 0
      (LineIndex.ofText text).starts.size = before.count '\n' + 1 := by
  rw [size_starts, h]
  apply partitionPoint_eq (Nat.zero_le _)
  · rw [List.count_append]
    omega
  · intro i hi
    rw [getD_starts, h, decide_eq_true_eq]
    exact getD_lineStarts_le hi

/-- The line of an offset starts after the last line end before it. -/
theorem getD_starts_count (h : text.toList = before ++ after) :
    (LineIndex.ofText text).starts.getD (before.count '\n') 0 =
      byteLength (before.rdropWhile (· ≠ '\n')) := by
  have hlast : before.count '\n' < (0 :: lineStarts 0 before).length := by
    rw [List.length_cons, length_lineStarts]
    omega
  rw [getD_starts, h, lineStarts_append, ← List.cons_append, List.getD_append _ _ _ _ hlast,
    List.getD_eq_getElem?_getD, getElem?_lineStarts]
  rfl

private theorem slice?_lastLine (before after : List Char) :
    slice? (before ++ after) (byteLength (before.rdropWhile (· ≠ '\n'))) (byteLength before) =
      some (before.rtakeWhile (· ≠ '\n')) := by
  have hslice := slice?_append (before.rtakeWhile (· ≠ '\n')) after
    (before.rdropWhile (· ≠ '\n'))
  rwa [← List.append_assoc, List.rdropWhile_append_rtakeWhile] at hslice

/-- The position of an offset between characters is the one after the text before it. -/
theorem position_eq_after (h : text.toList = before ++ after) :
    position text (byteLength before) = .after before := by
  have hsize : min (byteLength before) text.utf8ByteSize = byteLength before := by
    rw [← byteLength_toList, h, byteLength_append]
    omega
  rw [position, LineIndex.position, Position.after]
  simp only [text_ofText, hsize, partitionPoint_starts h, Nat.add_sub_cancel, getD_starts_count h]
  rw [h, slice?_lastLine, Nat.add_comm 1, Nat.add_comm 1]
  rfl

private theorem position_past_end {offset : Nat} (h : text.utf8ByteSize ≤ offset) :
    position text offset = position text text.utf8ByteSize := by
  simp only [position, LineIndex.position, text_ofText, Nat.min_eq_right h, Nat.min_self]

private theorem rtakeWhile_append {mid : List Char} (h : '\n' ∉ mid) :
    (before ++ mid).rtakeWhile (· ≠ '\n') = before.rtakeWhile (· ≠ '\n') ++ mid := by
  induction mid using List.reverseRecOn with
  | nil => rw [List.append_nil, List.append_nil]
  | append_singleton mid c ih =>
    have hmid : '\n' ∉ mid := fun hmem => h (List.mem_append_left _ hmem)
    have hne : c ≠ '\n' := by
      rintro rfl
      exact h (List.mem_append_right _ (List.mem_singleton_self _))
    rw [← List.append_assoc, List.rtakeWhile_concat_pos _ _ _ (by simpa using hne), ih hmid,
      List.append_assoc]

/-- Each character leads to a later position. -/
theorem after_before_after (before : List Char) {mid : List Char} (h : mid ≠ []) :
    (Position.after before).Before (.after (before ++ mid)) := by
  rw [Position.after, Position.after, List.count_append]
  by_cases hmid : '\n' ∈ mid
  · have := List.count_pos_iff.mpr hmid
    left
    simp only
    omega
  · have := List.length_pos_iff.mpr h
    right
    rw [rtakeWhile_append hmid, List.count_eq_zero.mpr hmid, List.length_append]
    simp only
    omega

end Positions

theorem Boundary.exists_toList {text : String} {offset : Nat} (h : Boundary text offset) :
    ∃ before after, text.toList = before ++ after ∧ offset = byteLength before := by
  obtain ⟨before, after, rfl, rfl⟩ := h
  exact ⟨before.toList, after.toList, String.toList_append, (byteLength_toList before).symm⟩

private theorem position_before {text : String} {m n : Nat} (hm : Boundary text m)
    (hn : Boundary text n) (h : m < n) : (position text m).Before (position text n) := by
  obtain ⟨before, after, htext, rfl⟩ := hm.exists_toList
  obtain ⟨before', after', htext', rfl⟩ := hn.exists_toList
  rw [position_eq_after htext, position_eq_after htext']
  rcases List.append_eq_append_iff.mp (htext.symm.trans htext') with ⟨mid, rfl, -⟩ | ⟨mid, rfl, -⟩
  · apply after_before_after
    rintro rfl
    rw [List.append_nil] at h
    exact Nat.lt_irrefl _ h
  · rw [byteLength_append] at h
    omega

/-- Positions are exact: the line counts the line ends before an offset, the column the characters
after the last of these, and the end of the text stands for all that is past it. So positions
increase from one character to the next, and no two places share one. -/
theorem positions_are_exact (text : String) :
    (∀ before after : String, text = before ++ after →
      position text before.utf8ByteSize =
        ⟨1 + before.toList.count '\n', 1 + (before.toList.rtakeWhile (· ≠ '\n')).length⟩) ∧
    (∀ offset, text.utf8ByteSize ≤ offset →
      position text offset = position text text.utf8ByteSize) ∧
    (∀ m n, Boundary text m → Boundary text n → m < n →
      (position text m).Before (position text n)) ∧
    (∀ m n, Boundary text m → Boundary text n → position text m = position text n → m = n) := by
  refine ⟨?_, fun _ => position_past_end, fun _ _ => position_before, ?_⟩
  · rintro before after rfl
    rw [← byteLength_toList]
    exact position_eq_after String.toList_append
  · intro m n hm hn heq
    rcases Nat.lt_trichotomy m n with h | h | h
    · exact absurd heq (position_before hm hn h).ne
    · exact h
    · exact absurd heq.symm (position_before hn hm h).ne

/-- Two characters of two bytes each, and an empty line between them. -/
theorem accented_positions :
    position "é\n\nπx" 6 = ⟨3, 2⟩ ∧ position "é\n\nπx" 40 = ⟨3, 3⟩ ∧
      (position "é\n\nπx" 2).Before (position "é\n\nπx" 3) ∧
      position "é\n\nπx" 3 ≠ position "é\n\nπx" 4 := by
  obtain ⟨hexact, hend, hbefore, hinjective⟩ := positions_are_exact "é\n\nπx"
  have htwo : Boundary "é\n\nπx" 2 := ⟨"é", "\n\nπx", by decide, by decide⟩
  have hthree : Boundary "é\n\nπx" 3 := ⟨"é\n", "\nπx", by decide, by decide⟩
  have hfour : Boundary "é\n\nπx" 4 := ⟨"é\n\n", "πx", by decide, by decide⟩
  refine ⟨hexact "é\n\nπ" "x" (by decide), ?_, hbefore 2 3 htwo hthree (by decide), fun heq => ?_⟩
  · rw [hend 40 (by decide)]
    exact hexact "é\n\nπx" "" (by decide)
  · exact absurd (hinjective 3 4 hthree hfour heq) (by decide)

end RasterScript.Text
