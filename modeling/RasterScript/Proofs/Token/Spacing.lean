import RasterScript.Proofs.Token.Breaks

/-! Blanks and comments only separate tokens: a text without faults has the same tokens with any
other blanks between them. -/
namespace RasterScript.Token

/-- What a token is, apart from its place. -/
def lexeme (t : Token) : Kind × String := (t.kind, t.text)

/-! ### Other blanks -/

/-- A way to write tokens anew: all of them stay as they are, only a continuation may have other
blanks before its line end. -/
def Rewrites (f : Kind → List Char → List Char) : Prop :=
  ∀ k w, f k w = w ∨ k = .continuation ∧
    ∃ margin, (∀ c ∈ margin, isMargin c) ∧ f k w = '\\' :: (margin ++ ['\n'])

/-- A text is written anew: its tokens by `f`, with other blanks between them. What was passed over
may be left out where a break stands in its place. -/
inductive Respaced (f : Kind → List Char → List Char) : List Char → List Char → Prop where
  | done : Respaced f [] []
  | token {k w rest ds} : TokenAt k w rest → Respaced f rest ds →
      Respaced f (w ++ rest) (f k w ++ ds)
  | skip {w rest ds} : Skipped w rest → Breaks ds → Respaced f rest ds → Respaced f (w ++ rest) ds
  | blank {c cs ds} : isBlank c → Respaced f cs ds → Respaced f cs (c :: ds)

private theorem isBreak_of_isBlank {c : Char} (h : isBlank c) : isBreak c := by
  rw [isBreak, h, Bool.true_or]

private theorem isBlank_of_isMargin {c : Char} (h : isMargin c) : isBlank c := by
  simp only [isMargin, isBlank, Bool.or_eq_true] at h ⊢
  exact .inl h

private theorem breaks_margin {margin ds : List Char} (h : ∀ c ∈ margin, isMargin c) :
    Breaks (margin ++ '\n' :: ds) := by
  cases margin with
  | nil => exact breaks_cons (by decide)
  | cons c margin =>
    exact breaks_cons (isBreak_of_isBlank (isBlank_of_isMargin (h c List.mem_cons_self)))

theorem TokenAt.exists_backslash {w rest : List Char} (h : TokenAt .continuation w rest) :
    ∃ u, w = '\\' :: u := by
  obtain ⟨margin, comment, rfl, -⟩ := h.longest.matches_self.shape
  exact ⟨_, rfl⟩

section Respaced

variable {f : Kind → List Char → List Char} {cs ds : List Char}

/-- Both texts agree up to a break of the new one. -/
theorem Respaced.exists_break (h : Respaced f cs ds) (hf : Rewrites f) :
    ∃ p x y, cs = p ++ x ∧ ds = p ++ y ∧ Breaks y := by
  induction h with
  | done => exact ⟨[], [], [], rfl, rfl, breaks_nil⟩
  | @token k w rest ds hw _ ih =>
    rcases hf k w with hsame | ⟨rfl, margin, hmargin, hnew⟩
    · obtain ⟨p, x, y, rfl, rfl, hy⟩ := ih
      refine ⟨w ++ p, x, y, (List.append_assoc ..).symm, ?_, hy⟩
      rw [hsame, List.append_assoc]
    · obtain ⟨u, rfl⟩ := hw.exists_backslash
      refine ⟨['\\'], u ++ rest, margin ++ '\n' :: ds, rfl, ?_, breaks_margin hmargin⟩
      rw [hnew, List.cons_append, List.append_assoc]
      rfl
  | @skip w rest ds _ hbreaks _ _ => exact ⟨[], w ++ rest, ds, rfl, rfl, hbreaks⟩
  | @blank c cs ds hc _ _ =>
    exact ⟨[], cs, c :: ds, rfl, rfl, breaks_cons (isBreak_of_isBlank hc)⟩

theorem Respaced.tokenAt {k : Kind} {w : List Char} (h : Respaced f cs ds) (hf : Rewrites f)
    (hw : TokenAt k w cs) : TokenAt k (f k w) ds := by
  rcases hf k w with hsame | ⟨rfl, margin, hmargin, hnew⟩
  · obtain ⟨p, x, y, rfl, rfl, hy⟩ := h.exists_break hf
    rw [hsame]
    exact hw.of_break hy
  · rw [hnew]
    exact tokenAt_continuation hmargin .none ds

/-- A text that is written anew has no faults and the same tokens. -/
theorem Respaced.scanFrom_eq (h : Respaced f cs ds) (hf : Rewrites f) (m n : Nat) :
    (scanFrom m ds).faults = [] ∧ (scanFrom m ds).tokens.map lexeme =
      (scanFrom n cs).tokens.map fun t => (t.kind, String.ofList (f t.kind t.text.toList)) := by
  induction h generalizing m n with
  | done => exact ⟨rfl, rfl⟩
  | token hw hrest ih =>
    rw [scanFrom_token hw, scanFrom_token (hrest.tokenAt hf hw)]
    obtain ⟨hfaults, htokens⟩ := ih _ _
    refine ⟨hfaults, ?_⟩
    rw [List.map_cons, List.map_cons, htokens, String.toList_ofList]
    rfl
  | skip hw _ _ ih =>
    rw [scanFrom_skip hw]
    exact ih m _
  | blank hc _ ih =>
    rw [scanFrom_blank hc]
    exact ih _ n

end Respaced

/-! ### Tokens joined by blanks -/

/-- The tokens of a text with one blank between them. -/
def joined (text : String) : String := " ".intercalate ((scan text).tokens.map Token.text)

private theorem rewrites_self : Rewrites fun _ w => w := fun _ _ => .inl rfl

/-- Each token with a blank before it. -/
def blankBefore (ts : List Token) : List Char := ts.flatMap fun t => ' ' :: t.text.toList

private theorem breaks_blankBefore (ts : List Token) : Breaks (blankBefore ts) := by
  cases ts with
  | nil => exact breaks_nil
  | cons t ts => exact breaks_cons (by decide)

theorem Lexed.respaced {n : Nat} {cs : List Char} {ts : List Token} {fs : List (Located Fault)}
    (h : Lexed n cs ts fs) (hfs : fs = []) : Respaced (fun _ w => w) cs (blankBefore ts) := by
  induction h with
  | done => exact .done
  | skip hw _ ih => exact .skip hw (breaks_blankBefore _) (ih hfs)
  | token hw _ ih =>
    show Respaced _ _ (' ' :: (String.ofList _).toList ++ blankBefore _)
    rw [String.toList_ofList]
    exact .blank (by decide) (.token hw (ih hfs))
  | fault _ _ _ => cases hfs

private theorem blankBefore_cons (t : Token) (ts : List Token) :
    blankBefore (t :: ts) = ' ' :: [' '].intercalate ((t :: ts).map fun t => t.text.toList) := by
  induction ts generalizing t with
  | nil =>
    show (' ' :: t.text.toList) ++ [] = ' ' :: [' '].intercalate [t.text.toList]
    rw [List.intercalate_singleton, List.append_nil]
  | cons t' ts ih =>
    show (' ' :: t.text.toList) ++ blankBefore (t' :: ts) = _
    rw [ih]
    simp only [List.map_cons, List.intercalate_cons_cons, List.cons_append, List.append_assoc,
      List.nil_append]

private theorem scan_joined {text : String} (h : (scan text).faults = []) :
    (scan (joined text)).faults = [] ∧
      (scan (joined text)).tokens.map lexeme = (scan text).tokens.map lexeme := by
  have hrespaced := (lexed_scanFrom 0 text.toList).respaced h
  rw [scan_eq_scanFrom (joined text), joined, String.toList_intercalate, List.map_map,
    scan_eq_scanFrom]
  cases hts : (scanFrom 0 text.toList).tokens with
  | nil => exact ⟨rfl, rfl⟩
  | cons t ts =>
    have hsame := hrespaced.scanFrom_eq rewrites_self 0 0
    -- The blank before the first token only moves what is scanned.
    rw [hts, blankBefore_cons, scanFrom_blank (by decide), Nat.add_comm, scanFrom_shift] at hsame
    obtain ⟨hfaults, htokens⟩ := hsame
    rw [List.map_map] at htokens
    refine ⟨List.map_eq_nil_iff.mp hfaults, htokens.trans ?_⟩
    simp only [String.ofList_toList]
    rfl

/-! ### One blank for each blank or comment -/

/-- One blank in place of some characters. -/
def oneBlank (cs : List Char) : List Char := if cs = [] then [] else [' ']

/-- A token, with one blank for the blanks of a continuation and one for its comment. -/
def spacedToken (k : Kind) (w : List Char) : List Char :=
  if k = .continuation then
    '\\' :: ((oneBlank (w.tail.takeWhile isMargin) ++
      oneBlank ((w.tail.dropWhile isMargin).takeWhile isInLine)) ++ ['\n'])
  else w

def Piece.spaced (p : Piece) : List Char :=
  match p.role with
  | .blank => [' ']
  | .token k => spacedToken k p.chars
  | .stray | .unterminated => p.chars

/-- A text with one blank for each comment and each row of blanks. -/
def spaced (text : String) : String := String.ofList ((pieces text.toList).flatMap Piece.spaced)

private theorem isMargin_oneBlank (cs : List Char) : ∀ c ∈ oneBlank cs, isMargin c := by
  rw [oneBlank]
  split
  · exact List.forall_mem_nil _
  · exact List.forall_mem_singleton.mpr rfl

private theorem rewrites_spacedToken : Rewrites spacedToken := by
  intro k w
  rw [spacedToken]
  split
  · next hk =>
    refine .inr ⟨hk, _, ?_, rfl⟩
    exact List.forall_mem_append.mpr ⟨isMargin_oneBlank _, isMargin_oneBlank _⟩
  · exact .inl rfl

/-- A text is taken piece by piece. -/
theorem pieces_induction {motive : List Char → Prop} (nil : motive [])
    (piece : ∀ role w rest, Fits role w rest → pieces (w ++ rest) = ⟨role, w⟩ :: pieces rest →
      motive rest → motive (w ++ rest)) (cs : List Char) : motive cs := by
  induction hlength : cs.length using Nat.strong_induction_on generalizing cs with
  | _ n ih =>
    cases cs with
    | nil => exact nil
    | cons c cs =>
      obtain ⟨u, rest, rfl, hu, hfits⟩ := leading_cuts c cs
      have hrest : rest.length < n := by
        simp only [List.length_cons, List.length_append] at hlength
        omega
      exact piece _ (c :: u) rest hfits (pieces_cons (Prod.ext rfl hu)) (ih _ hrest rest rfl)

private theorem respaced_spaced (cs : List Char) : ∀ n, (scanFrom n cs).faults = [] →
    Respaced spacedToken cs ((pieces cs).flatMap Piece.spaced) := by
  induction cs using pieces_induction with
  | nil => exact fun _ _ => .done
  | piece role w rest hfits hpieces ih =>
    intro n hfaults
    rw [scanFrom, hpieces] at hfaults
    rw [hpieces, List.flatMap_cons]
    cases role with
    | blank => exact .skip hfits (breaks_cons (by decide)) (.blank (by decide) (ih _ hfaults))
    | token k => exact .token hfits (ih _ hfaults)
    | stray => cases hfaults
    | unterminated => cases hfaults

private theorem scan_spaced {text : String} (h : (scan text).faults = []) :
    (scan (spaced text)).faults = [] ∧
      (scan (spaced text)).tokens.map lexeme = (scan text).tokens.map fun t =>
        (t.kind, String.ofList (spacedToken t.kind t.text.toList)) := by
  rw [scan_eq_scanFrom, spaced, String.toList_ofList, scan_eq_scanFrom]
  exact (respaced_spaced _ 0 h).scanFrom_eq rewrites_spacedToken 0 0

/-! ### Dialects -/

private theorem tokens_frame (s : Scan) (dialect : Dialect) :
    (s.frame dialect).tokens = s.tokens.filter (isFramed dialect) := rfl

private theorem isFramed_congr {s t : Token} (h : s.kind = t.kind) (dialect : Dialect) :
    isFramed dialect s = isFramed dialect t := by
  rw [isFramed, isFramed, h]

/-- No dialect keeps continuations, and all other tokens are written as they were. -/
theorem spacedToken_of_isFramed {t : Token} {dialect : Dialect} (h : isFramed dialect t) :
    spacedToken t.kind t.text.toList = t.text.toList := by
  refine if_neg fun hkind => ?_
  rw [isFramed, hkind] at h
  cases h

private theorem framed_lexemes {ts us : List Token} (dialect : Dialect)
    (h : us.map lexeme =
      ts.map fun t => (t.kind, String.ofList (spacedToken t.kind t.text.toList))) :
    (us.filter (isFramed dialect)).map lexeme = (ts.filter (isFramed dialect)).map lexeme := by
  induction ts generalizing us with
  | nil =>
    rw [List.map_eq_nil_iff.mp h]
  | cons t ts ih =>
    obtain ⟨u, us, rfl, hu, hus⟩ := List.map_eq_cons_iff.mp h
    obtain ⟨hkind, htext⟩ := Prod.mk.inj hu
    rw [List.filter_cons, List.filter_cons, isFramed_congr hkind]
    split
    · next hframed =>
      rw [spacedToken_of_isFramed hframed, String.ofList_toList] at htext
      rw [List.map_cons, List.map_cons, ih hus, lexeme, lexeme, hkind, htext]
    · exact ih hus

/-- Blanks and comments only separate tokens: the tokens of a text without faults, joined by single
blanks, are scanned again as they were, and with one blank for each comment and each row of blanks
both dialects see the same tokens. -/
theorem blanks_only_separate (text : String) (h : (scan text).faults = []) :
    (scan (joined text)).faults = [] ∧
    (scan (joined text)).tokens.map lexeme = (scan text).tokens.map lexeme ∧
    (scan (spaced text)).faults = [] ∧
    (scan (spaced text)).tokens.map Token.kind = (scan text).tokens.map Token.kind ∧
    ∀ dialect, ((scan (spaced text)).frame dialect).tokens.map lexeme =
      ((scan text).frame dialect).tokens.map lexeme := by
  obtain ⟨hjoined, hlexemes⟩ := scan_joined h
  obtain ⟨hspaced, hsame⟩ := scan_spaced h
  refine ⟨hjoined, hlexemes, hspaced, ?_, fun dialect => ?_⟩
  · have hkinds := congrArg (List.map Prod.fst) hsame
    rwa [List.map_map, List.map_map] at hkinds
  · rw [tokens_frame, tokens_frame]
    exact framed_lexemes dialect hsame

/-- Slashes around a comment, a continuation with a comment, and a number before a name that could
begin an exponent. -/
def dividing : String := "a/ /*c*// b\\ // d\n1e"

theorem dividing_separates :
    (scan dividing).faults = [] ∧
    joined dividing = "a / / b \\ // d\n 1 e" ∧ spaced dividing = "a/  / b\\  \n1e" ∧
    (scan "a / / b \\ // d\n 1 e").tokens.map lexeme = (scan dividing).tokens.map lexeme ∧
    ((scan "a/  / b\\  \n1e").frame .extended).tokens.map lexeme =
      ((scan dividing).frame .extended).tokens.map lexeme := by
  have hfaults : (scan dividing).faults = [] := by decide +kernel
  have hjoined : joined dividing = "a / / b \\ // d\n 1 e" := by decide +kernel
  have hspaced : spaced dividing = "a/  / b\\  \n1e" := by decide +kernel
  obtain ⟨-, hlexemes, -, -, hframed⟩ := blanks_only_separate dividing hfaults
  rw [hjoined] at hlexemes
  rw [hspaced] at hframed
  exact ⟨hfaults, hjoined, hspaced, hlexemes, hframed .extended⟩

end RasterScript.Token
