import RasterScript.Proofs.Token.Lexemes

/-! Tokens end where a blank or a line end stands: what comes after it does not change them. A scan
is then put together from the tokens that stand in a text and what is passed over between them. -/
namespace RasterScript

/-- The same place in a text that starts later. -/
def Span.shift (n : Nat) (s : Span) : Span := ⟨n + s.start, n + s.stop⟩

def Located.shift {α : Type} (n : Nat) (a : Located α) : Located α :=
  { a with span := a.span.shift n }

namespace Token

/-! ### Breaks -/

/-- A character that only blanks, comments and the ends of lines hold. -/
def isBreak (c : Char) : Bool := isBlank c || c = '\n'

/-- A text that ends here, or goes on with a blank or a line end. -/
def Breaks (cs : List Char) : Prop := ∀ c, cs.head? = some c → isBreak c

theorem breaks_nil : Breaks [] := nofun

theorem breaks_cons {c : Char} {cs : List Char} (h : isBreak c) : Breaks (c :: cs) := by
  intro d hd
  rwa [← Option.some.inj hd]

section Characters

variable {c : Char} {cs w : List Char} {k : Kind}

private theorem not_isBreak_of_isWordChar (h : isWordChar c) : isBreak c = false := by
  obtain ⟨hblank, hline⟩ := class_of_isWordChar h
  rw [isBreak, hblank, Bool.false_or, decide_eq_false hline]

private theorem not_isBreak_spelling (hk : k ∈ Kind.symbols) :
    ∀ c ∈ k.spelling, isBreak c = false := by
  have hall : ∀ k ∈ Kind.symbols, k.spelling.all fun c => !isBreak c := by decide
  intro c hc
  simpa using List.all_eq_true.mp (hall k hk) c hc

theorem Digits.not_isBreak (h : Digits cs) : ∀ c ∈ cs, isBreak c = false :=
  fun c hc => not_isBreak_of_isWordChar (isWordChar_of_isDigit (h.digits c hc))

theorem FractionPart.not_isBreak (h : FractionPart cs) : ∀ c ∈ cs, isBreak c = false := by
  cases h with
  | none => exact List.forall_mem_nil _
  | some hds => exact List.forall_mem_cons.mpr ⟨by decide, hds.not_isBreak⟩

theorem ExponentPart.not_isBreak (h : ExponentPart cs) : ∀ c ∈ cs, isBreak c = false := by
  cases h with
  | none => exact List.forall_mem_nil _
  | some he hsign hds =>
    refine List.forall_mem_cons.mpr ⟨?_, List.forall_mem_append.mpr ⟨?_, hds.not_isBreak⟩⟩
    · rcases he with rfl | rfl <;> rfl
    · rcases hsign with rfl | rfl | rfl
      · exact List.forall_mem_nil _
      · exact List.forall_mem_singleton.mpr rfl
      · exact List.forall_mem_singleton.mpr rfl

private theorem opening_token_ne_blank (k : Kind) : (Pattern.token k).opening ≠ .blank := by
  cases k <;> decide

private theorem not_comment_spelling : ∀ k ∈ Kind.keywords ++ Kind.symbols,
    ¬ ['/', '/'] <+: k.spelling ∧ ¬ ['/', '*'] <+: k.spelling := by
  decide

private theorem not_comment_of_head (h : cs.head? ≠ some '/') :
    ¬ ['/', '/'] <+: cs ∧ ¬ ['/', '*'] <+: cs := by
  constructor
  · rintro ⟨rest, rfl⟩
    exact h rfl
  · rintro ⟨rest, rfl⟩
    exact h rfl

/-- No token opens like a comment. -/
theorem Matches.not_comment (h : Matches (.token k) w) :
    ¬ ['/', '/'] <+: w ∧ ¬ ['/', '*'] <+: w := by
  have hclass := h.classOf_head
  cases h with
  | word hk => exact not_comment_spelling _ (List.mem_append_left _ hk)
  | symbol hk => exact not_comment_spelling _ (List.mem_append_right _ hk)
  | number _ _ _ | ident _ _ | newline | continuation _ _ =>
    apply not_comment_of_head
    intro hslash
    rw [hslash] at hclass
    revert hclass
    decide

end Characters

/-! ### Tokens before a break -/

section TokensBeforeBreaks

variable {k : Kind} {q : Pattern} {v w p x y rest : List Char}

/-- Only the ends of lines, blanks and comments hold a break. -/
theorem Matches.not_isBreak (h : Matches q v) :
    (∀ c ∈ v, isBreak c = false) ∨ q = .token .newline ∨ q = .token .continuation ∨ q = .blanks ∨
      q = .lineComment := by
  cases h with
  | word hk =>
    have hchars := List.all_eq_true.mp (opening_keyword _ hk).2
    exact .inl fun c hc => not_isBreak_of_isWordChar (hchars c hc)
  | symbol hk => exact .inl (not_isBreak_spelling hk)
  | number hwhole hfraction hexponent =>
    refine .inl (List.forall_mem_append.mpr ⟨hwhole.not_isBreak, ?_⟩)
    exact List.forall_mem_append.mpr ⟨hfraction.not_isBreak, hexponent.not_isBreak⟩
  | @ident c cs hc hcs =>
    have hchars : ∀ d ∈ c :: cs, isWordChar d :=
      List.forall_mem_cons.mpr ⟨isWordChar_of_isWordStart hc, hcs⟩
    exact .inl fun d hd => not_isBreak_of_isWordChar (hchars d hd)
  | newline => exact .inr (.inl rfl)
  | continuation _ _ => exact .inr (.inr (.inl rfl))
  | blanks _ _ => exact .inr (.inr (.inr (.inl rfl)))
  | lineComment _ => exact .inr (.inr (.inr (.inr rfl)))
  | commentStart => exact .inl (List.forall_mem_cons.mpr ⟨rfl, List.forall_mem_singleton.mpr rfl⟩)

/-- Where a token stands, no longer stretch opens a comment. -/
theorem TokenAt.not_comment (h : TokenAt k w rest) :
    ¬ ['/', '/'] <+: w ++ rest ∧ ¬ ['/', '*'] <+: w ++ rest := by
  have hshort : ∀ q v, Matches q v → v <+: w ++ rest → v <+: w := fun q v hv hfront =>
    List.prefix_of_prefix_length_le hfront (List.prefix_append _ _)
      (h.longest.longest q v hv hfront)
  obtain ⟨hline, hblock⟩ := h.longest.matches_self.not_comment
  constructor
  · exact fun hfront => hline (hshort _ _ (.lineComment (List.forall_mem_nil _)) hfront)
  · exact fun hfront => hblock (hshort _ _ .commentStart hfront)

/-- What reaches from a token over a break is no longer than the token. -/
theorem TokenAt.length_le_over_break {b : Char} {t : List Char} (h : TokenAt k w (p ++ x))
    (hv : Matches q v) (hsplit : v = (w ++ p) ++ b :: t) (hb : isBreak b) (hfront : v <+: w ++ y) :
    v.length ≤ w.length := by
  obtain ⟨c, u, rfl⟩ := List.exists_cons_of_ne_nil h.ne_nil
  have hself := h.longest.matches_self
  have hclass := hself.classOf_head
  rcases hv.not_isBreak with hall | rfl | rfl | rfl | rfl
  · have hmem : b ∈ v := hsplit ▸ List.mem_append_right _ List.mem_cons_self
    rw [hall b hmem] at hb
    cases hb
  · obtain rfl : v = ['\n'] := hv.shape
    exact Nat.succ_le_succ (Nat.zero_le _)
  · -- The token is the continuation itself.
    obtain ⟨margin, comment, hcontinuation, -⟩ := hv.shape
    obtain rfl : c = '\\' := (List.cons.inj (hsplit.symm.trans hcontinuation)).1
    exact Nat.le_of_eq (congrArg List.length
      (continuation_unique hv hfront hself (List.prefix_append _ _)))
  · have hblank := hv.classOf_head
    rw [hsplit] at hblank
    exact absurd (Option.some.inj (hclass.symm.trans hblank)) (opening_token_ne_blank k)
  · -- Two slashes would stand in the text before the break.
    cases hv with
    | lineComment _ =>
      rw [List.cons_append, List.cons_append] at hsplit
      obtain ⟨rfl, hrest⟩ := List.cons.inj hsplit
      cases hup : u ++ p with
      | nil =>
        rw [hup] at hrest
        obtain ⟨rfl, -⟩ := List.cons.inj hrest
        exact absurd hb (by decide)
      | cons d r =>
        rw [hup] at hrest
        obtain ⟨rfl, -⟩ := List.cons.inj hrest
        refine absurd ⟨r ++ x, ?_⟩ h.not_comment.1
        show '/' :: '/' :: (r ++ x) = '/' :: (u ++ (p ++ x))
        rw [← List.append_assoc u, hup]
        rfl

/-- A token depends on the text up to the next break only. -/
theorem TokenAt.of_break (h : TokenAt k w (p ++ x)) (hy : Breaks y) : TokenAt k w (p ++ y) := by
  refine ⟨⟨h.longest.matches_self, List.prefix_append _ _, fun q v hv hfront => ?_⟩, h.keyword⟩
  have hinside : v <+: w ++ p → v.length ≤ w.length := fun hprefix => by
    refine h.longest.longest q v hv ?_
    rw [← List.append_assoc]
    exact hprefix.trans (List.prefix_append _ _)
  obtain ⟨s, hs⟩ := hfront
  rw [← List.append_assoc] at hs
  rcases List.append_eq_append_iff.mp hs with ⟨t, ht, -⟩ | ⟨t, rfl, rfl⟩
  · exact hinside ⟨t, ht.symm⟩
  · cases t with
    | nil =>
      rw [List.append_nil] at hinside ⊢
      exact hinside (List.prefix_refl _)
    | cons b t =>
      refine h.length_le_over_break hv rfl (hy b rfl) (y := p ++ b :: t) ?_
      rw [List.append_assoc]

end TokensBeforeBreaks

/-! ### Scans from an offset on -/

/-- The tokens and faults of a text that starts at an offset. -/
def scanFrom (start : Nat) (cs : List Char) : Scan :=
  let placed := place start (pieces cs)
  ⟨placed.filterMap ofPiece?, placed.filterMap Fault.ofPiece?⟩

theorem scan_eq_scanFrom (text : String) : scan text = scanFrom 0 text.toList := rfl

theorem lexed_scanFrom (start : Nat) (cs : List Char) :
    Lexed start cs (scanFrom start cs).tokens (scanFrom start cs).faults :=
  lexed_place start cs

section Scans

variable {n : Nat} {k : Kind} {w w' rest rest' : List Char}

theorem TokenAt.not_skipped (h : TokenAt k w rest) :
    ¬ (Skipped w' rest' ∧ w ++ rest = w' ++ rest') := by
  rintro ⟨hskipped, heq⟩
  obtain ⟨hline, hblock⟩ := h.not_comment
  rw [heq] at hline hblock
  cases hskipped with
  | @blanks w' _ hne hall =>
    obtain ⟨c, u, rfl⟩ := List.exists_cons_of_ne_nil hne
    obtain ⟨d, v, rfl⟩ := List.exists_cons_of_ne_nil h.ne_nil
    obtain ⟨rfl, -⟩ := List.cons.inj heq
    have hclass := h.longest.matches_self.classOf_head
    have hblank : classOf d = .blank := if_pos (hall d List.mem_cons_self)
    exact opening_token_ne_blank k ((Option.some.inj hclass).symm.trans hblank)
  | lineComment _ _ => exact hline ⟨_, rfl⟩
  | blockComment _ => exact hblock ⟨_, rfl⟩

theorem TokenAt.not_fault {f : Fault} (h : TokenAt k w rest) :
    ¬ (FaultAt f w' rest' ∧ w ++ rest = w' ++ rest') := by
  rintro ⟨hfault, heq⟩
  have hstarts := h.longest.starts
  rw [heq] at hstarts
  cases hfault with
  | character _ hunmatched => exact hunmatched _ _ h.longest.matches_self hstarts
  | backslash _ _ _ hunmatched => exact hunmatched _ _ h.longest.matches_self hstarts
  | lastComment _ _ hunmatched =>
    rw [List.append_nil] at hstarts
    exact hunmatched _ _ h.longest.matches_self hstarts
  | unterminated _ _ =>
    refine h.not_comment.2 ?_
    rw [heq]
    exact ⟨_, rfl⟩

/-- The kind that a stretch of text has if it is a token. -/
def kindOf (w : List Char) : Kind :=
  match w.head?.map classOf with
  | some .word => wordKind w
  | some .digit => .number
  | some .newline => .newline
  | some .backslash => .continuation
  | _ => (Kind.symbols.find? fun k => k.spelling = w).getD .ident

private theorem kindOf_spelling : ∀ k ∈ Kind.keywords ++ Kind.symbols, kindOf k.spelling = k := by
  decide

theorem TokenAt.kind_eq (h : TokenAt k w rest) : k = kindOf w := by
  have hclass := h.longest.matches_self.classOf_head
  have hident := h.keyword
  cases h.longest.matches_self with
  | word hk => exact (kindOf_spelling _ (List.mem_append_left _ hk)).symm
  | symbol hk => exact (kindOf_spelling _ (List.mem_append_right _ hk)).symm
  | number _ _ _ =>
    rw [kindOf, hclass]
    rfl
  | ident _ _ =>
    rw [kindOf, hclass]
    show Kind.ident = wordKind _
    rw [wordKind, List.find?_eq_none.mpr fun k hk => by simpa using hident rfl k hk]
    rfl
  | newline => rfl
  | continuation _ _ => rfl

/-- At most one token stands at the start of a text. -/
theorem TokenAt.unique {k' : Kind} (h : TokenAt k w rest) (h' : TokenAt k' w' rest')
    (heq : w ++ rest = w' ++ rest') : k = k' ∧ w = w' := by
  have hfront : w <+: w' ++ rest' := heq ▸ List.prefix_append _ _
  have hfront' : w' <+: w ++ rest := heq ▸ List.prefix_append _ _
  have hle := h'.longest.longest _ _ h.longest.matches_self hfront
  have hprefix := List.prefix_of_prefix_length_le hfront (List.prefix_append _ _) hle
  obtain rfl : w = w' := hprefix.eq_of_length_le
    (h.longest.longest _ _ h'.longest.matches_self hfront')
  exact ⟨h.kind_eq.trans h'.kind_eq.symm, rfl⟩

theorem TokenAt.leading_eq {c : Char} {u : List Char} (h : TokenAt k (c :: u) rest) :
    leading c (u ++ rest) = (.token k, u.length) := by
  obtain ⟨u', rest', hsplit, hlength, hfits⟩ := leading_cuts c (u ++ rest)
  have heq : (c :: u) ++ rest = (c :: u') ++ rest' := congrArg (c :: ·) hsplit
  obtain ⟨role, hrole⟩ : ∃ role, (leading c (u ++ rest)).1 = role := ⟨_, rfl⟩
  rw [hrole] at hfits
  cases role with
  | blank => exact absurd ⟨hfits, heq⟩ h.not_skipped
  | token k' =>
    obtain ⟨rfl, hw⟩ := h.unique hfits heq
    rw [← (List.cons.inj hw).2] at hlength
    exact Prod.ext hrole hlength
  | stray => exact absurd ⟨hfits, heq⟩ h.not_fault
  | unterminated => exact absurd ⟨hfits, heq⟩ h.not_fault

theorem scanFrom_token (h : TokenAt k w rest) (n : Nat) :
    scanFrom n (w ++ rest) =
      ⟨⟨k, String.ofList w, ⟨n, n + byteLength w⟩⟩ :: (scanFrom (n + byteLength w) rest).tokens,
        (scanFrom (n + byteLength w) rest).faults⟩ := by
  obtain ⟨c, u, rfl⟩ := List.exists_cons_of_ne_nil h.ne_nil
  rw [scanFrom, List.cons_append, pieces_cons h.leading_eq]
  rfl

/-- A piece that is passed over leaves nothing behind. -/
theorem scanFrom_of_leading {c : Char} {u : List Char}
    (h : leading c (u ++ rest) = (.blank, u.length)) (n : Nat) :
    scanFrom n ((c :: u) ++ rest) = scanFrom (n + byteLength (c :: u)) rest := by
  rw [scanFrom, List.cons_append, pieces_cons h]
  rfl

private theorem scanFrom_run {c : Char} (hc : isBlank c) (n : Nat) (cs : List Char) :
    scanFrom n (c :: cs) =
      scanFrom (n + byteLength (c :: cs.takeWhile isBlank)) (cs.dropWhile isBlank) := by
  have hleading : leading c (cs.takeWhile isBlank ++ cs.dropWhile isBlank) =
      (.blank, (cs.takeWhile isBlank).length) := by
    rw [List.takeWhile_append_dropWhile, leading, if_pos hc]
  have hscan := scanFrom_of_leading hleading n
  rwa [List.cons_append, List.takeWhile_append_dropWhile] at hscan

theorem scanFrom_blank {c : Char} (hc : isBlank c) (n : Nat) (cs : List Char) :
    scanFrom n (c :: cs) = scanFrom (n + c.utf8Size) cs := by
  rw [scanFrom_run hc]
  cases cs with
  | nil => rfl
  | cons d ds =>
    by_cases hd : isBlank d
    · rw [scanFrom_run hd, List.takeWhile_cons_of_pos hd, List.dropWhile_cons_of_pos hd, byteLength,
        Nat.add_assoc]
    · rw [List.takeWhile_cons_of_neg hd, List.dropWhile_cons_of_neg hd]
      rfl

private theorem scanFrom_blanks (hw : ∀ c ∈ w, isBlank c) (n : Nat) (rest : List Char) :
    scanFrom n (w ++ rest) = scanFrom (n + byteLength w) rest := by
  induction w generalizing n with
  | nil => rfl
  | cons c w ih =>
    obtain ⟨hc, hw⟩ := List.forall_mem_cons.mp hw
    rw [List.cons_append, scanFrom_blank hc, ih hw, byteLength, Nat.add_assoc]

/-- A comment ends at its first end mark. -/
theorem commentLength?_append (hw : ¬ ['*', '/'] <:+: w ++ ['*']) (rest : List Char) :
    commentLength? (w ++ '*' :: '/' :: rest) = some (w.length + 2) := by
  induction w with
  | nil => rfl
  | cons c w ih =>
    rw [List.cons_append, List.infix_cons_iff, not_or] at hw
    have hearly : ∀ tail, c = '*' → w ++ '*' :: '/' :: rest = '/' :: tail → False := by
      rintro tail rfl htail
      cases w with
      | nil => cases htail
      | cons d w =>
        obtain rfl : d = '/' := (List.cons.inj htail).1
        exact hw.1 ⟨w ++ ['*'], rfl⟩
    rw [List.cons_append, commentLength?.eq_3 _ _ hearly, ih hw.2]
    rfl

/-- What is passed over leaves nothing behind. -/
theorem scanFrom_skip (h : Skipped w rest) (n : Nat) :
    scanFrom n (w ++ rest) = scanFrom (n + byteLength w) rest := by
  cases h with
  | blanks _ hall => exact scanFrom_blanks hall n rest
  | @lineComment w _ hinLine hend =>
    have hstop : rest.takeWhile isInLine = [] := by
      cases rest with
      | nil => rfl
      | cons c rest =>
        obtain rfl := hend c rfl
        rfl
    refine scanFrom_of_leading (u := '/' :: w) ?_ n
    show afterSlash ('/' :: (w ++ rest)) = _
    rw [afterSlash, List.takeWhile_append_of_pos hinLine, hstop, List.append_nil]
    rfl
  | @blockComment w _ hfirst =>
    refine scanFrom_of_leading (u := '*' :: (w ++ ['*', '/'])) ?_ n
    show afterSlash ('*' :: ((w ++ ['*', '/']) ++ rest)) = _
    rw [List.append_assoc, afterSlash]
    simp only [List.cons_append, List.nil_append, commentLength?_append hfirst rest,
      List.length_cons, List.length_append]
    rfl

end Scans

/-! ### Texts that start later -/

def shift (n : Nat) (t : Token) : Token := { t with span := t.span.shift n }

private theorem place_shift (n start : Nat) (ps : List Piece) :
    place (n + start) ps = (place start ps).map (Located.shift n) := by
  induction ps generalizing start with
  | nil => rfl
  | cons p ps ih =>
    rw [place, place, List.map_cons, Nat.add_assoc, ih]
    rfl

theorem ofPiece?_shift (n : Nat) (p : Located Piece) :
    ofPiece? (p.shift n) = (ofPiece? p).map (shift n) := by
  obtain ⟨⟨role, chars⟩, span⟩ := p
  cases role <;> rfl

theorem Fault.ofPiece?_shift (n : Nat) (p : Located Piece) :
    Fault.ofPiece? (p.shift n) = (Fault.ofPiece? p).map (Located.shift n) := by
  obtain ⟨⟨role, chars⟩, span⟩ := p
  cases role <;> rfl

/-- A text that starts later has the same tokens and faults, only later. -/
theorem scanFrom_shift (n start : Nat) (cs : List Char) :
    scanFrom (n + start) cs =
      ⟨(scanFrom start cs).tokens.map (shift n),
        (scanFrom start cs).faults.map (Located.shift n)⟩ := by
  simp only [scanFrom, place_shift, List.filterMap_map, List.map_filterMap]
  congr 1
  · exact congrArg (List.filterMap · _) (funext (ofPiece?_shift n))
  · exact congrArg (List.filterMap · _) (funext (Fault.ofPiece?_shift n))

end Token

end RasterScript
