import RasterScript.Token.Scan

/-! The tokens of a text stand one after the other, and each has a place of its own. -/
namespace RasterScript.Token

theorem byteLength_pos (c : Char) (cs : List Char) : 0 < byteLength (c :: cs) :=
  Nat.add_pos_left c.utf8Size_pos _

private theorem piecesAfter_ne_nil (cs : List Char) (skip : Nat) :
    ∀ p ∈ piecesAfter cs skip, p.chars ≠ [] := by
  fun_induction piecesAfter cs skip with
  | case1 => simp
  | case2 _ _ _ ih => exact ih
  | case3 c cs role n _ ih => exact List.forall_mem_cons.mpr ⟨List.cons_ne_nil _ _, ih⟩

/-- One place ends before the next begins. -/
def Before {α : Type} (a b : Located α) : Prop := a.span.stop ≤ b.span.start

private theorem le_start_of_mem_place {start : Nat} {ps : List Piece} {p : Located Piece}
    (h : p ∈ place start ps) : start ≤ p.span.start := by
  induction ps generalizing start with
  | nil => cases h
  | cons q ps ih =>
    rcases List.mem_cons.mp h with rfl | h
    · exact Nat.le_refl start
    · exact Nat.le_trans (Nat.le_add_right _ _) (ih h)

private theorem place_pairwise (start : Nat) (ps : List Piece) :
    (place start ps).Pairwise Before := by
  induction ps generalizing start with
  | nil => exact .nil
  | cons p ps ih => exact .cons (fun q hq => le_start_of_mem_place hq) (ih _)

private theorem start_lt_stop_of_mem_place {start : Nat} {ps : List Piece}
    (hps : ∀ p ∈ ps, p.chars ≠ []) {p : Located Piece} (h : p ∈ place start ps) :
    p.span.start < p.span.stop := by
  induction ps generalizing start with
  | nil => cases h
  | cons q ps ih =>
    obtain ⟨hq, hps⟩ := List.forall_mem_cons.mp hps
    rcases List.mem_cons.mp h with rfl | h
    · obtain ⟨c, cs, hchars⟩ := List.exists_cons_of_ne_nil hq
      have := byteLength_pos c cs
      simp only [hchars]
      omega
    · exact ih hps h

private theorem ofPiece?_span {p : Located Piece} {t : Token} (h : ofPiece? p = some t) :
    t.span = p.span := by
  unfold ofPiece? at h
  split at h
  · cases h
    rfl
  · cases h

theorem scan_tokens_ordered (text : String) :
    (scan text).tokens.Pairwise fun s t => s.span.stop ≤ t.span.start := by
  refine (place_pairwise 0 (pieces text.toList)).filterMap ofPiece? ?_
  intro p q hpq s hs t ht
  rw [ofPiece?_span hs, ofPiece?_span ht]
  exact hpq

theorem scan_tokens_nonempty {text : String} {t : Token} (h : t ∈ (scan text).tokens) :
    t.span.start < t.span.stop := by
  obtain ⟨p, hp, ht⟩ := List.mem_filterMap.mp h
  rw [ofPiece?_span ht]
  exact start_lt_stop_of_mem_place (piecesAfter_ne_nil _ _) hp

/-- No two tokens of a text have the same place. -/
theorem scan_spans_nodup (text : String) : ((scan text).tokens.map Token.span).Nodup := by
  rw [List.Nodup, List.pairwise_map]
  refine (scan_tokens_ordered text).imp_of_mem ?_
  intro s t hs _ hst heq
  have := scan_tokens_nonempty hs
  rw [← heq] at hst
  omega

end RasterScript.Token
