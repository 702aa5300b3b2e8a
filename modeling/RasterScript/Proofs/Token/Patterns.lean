import Mathlib.Data.List.Infix
import Mathlib.Data.List.TakeWhile
import RasterScript.Token.Scan

/-! The shapes that tokens, blanks and comments have, and which of them fit at the start of a
text. -/
namespace RasterScript.Token

/-- What a stretch of text can be by its shape. -/
inductive Pattern where
  | token (kind : Kind)
  | blanks
  | lineComment
  /-- The opening of a block comment. -/
  | commentStart
deriving DecidableEq, Repr

/-- One digit or more. -/
structure Digits (cs : List Char) : Prop where
  nonempty : cs ≠ []
  digits : ∀ c ∈ cs, c.isDigit

/-- A point with digits after it, or nothing. -/
inductive FractionPart : List Char → Prop where
  | none : FractionPart []
  | some {ds} : Digits ds → FractionPart ('.' :: ds)

/-- An exponent with or without a sign, or nothing. -/
inductive ExponentPart : List Char → Prop where
  | none : ExponentPart []
  | some {e sign ds} : e = 'e' ∨ e = 'E' → sign = [] ∨ sign = ['+'] ∨ sign = ['-'] → Digits ds →
      ExponentPart (e :: (sign ++ ds))

/-- A comment up to the end of a line, or nothing. -/
inductive CommentPart : List Char → Prop where
  | none : CommentPart []
  | some {cs} : (∀ c ∈ cs, isInLine c) → CommentPart ('/' :: '/' :: cs)

/-- The stretches of text of each shape. -/
inductive Matches : Pattern → List Char → Prop where
  | word {k} : k ∈ Kind.keywords → Matches (.token k) k.spelling
  | symbol {k} : k ∈ Kind.symbols → Matches (.token k) k.spelling
  | number {whole fraction exponent} : Digits whole → FractionPart fraction →
      ExponentPart exponent → Matches (.token .number) (whole ++ (fraction ++ exponent))
  | ident {c cs} : isWordStart c → (∀ d ∈ cs, isWordChar d) → Matches (.token .ident) (c :: cs)
  | newline : Matches (.token .newline) ['\n']
  | continuation {margin comment} : (∀ c ∈ margin, isMargin c) → CommentPart comment →
      Matches (.token .continuation) ('\\' :: (margin ++ (comment ++ ['\n'])))
  | blanks {cs} : cs ≠ [] → (∀ c ∈ cs, isBlank c) → Matches .blanks cs
  | lineComment {cs} : (∀ c ∈ cs, isInLine c) → Matches .lineComment ('/' :: '/' :: cs)
  | commentStart : Matches .commentStart ['/', '*']

/-- A stretch at the start of a text has a shape, and no longer one has any. -/
structure Longest (p : Pattern) (w cs : List Char) : Prop where
  matches_self : Matches p w
  starts : w <+: cs
  longest : ∀ q v, Matches q v → v <+: cs → v.length ≤ w.length

/-- No stretch at the start of a text has any shape. -/
def Unmatched (cs : List Char) : Prop := ∀ q v, Matches q v → ¬ v <+: cs

/-! ### The first character -/

/-- What a first character tells of the shape. -/
inductive Class where
  | blank | newline | word | digit | backslash | slash | other
deriving DecidableEq, Repr

def classOf (c : Char) : Class :=
  if isBlank c then .blank
  else if c = '\n' then .newline
  else if isWordStart c then .word
  else if c.isDigit then .digit
  else if c = '\\' then .backslash
  else if c = '/' then .slash
  else .other

def Pattern.opening : Pattern → Class
  | .token .number => .digit
  | .token .ident => .word
  | .token .newline => .newline
  | .token .continuation => .backslash
  | .token k => (k.spelling.head?.map classOf).getD .other
  | .blanks => .blank
  | .lineComment | .commentStart => .slash

/-- What a stretch looks like that opens with a character of a class. -/
def Shape : Class → List Char → Prop
  | .blank, _ => True
  | .newline, w => w = ['\n']
  | .word, w => ∀ c ∈ w.tail, isWordChar c
  | .digit, w => ∃ whole fraction exponent, w = whole ++ (fraction ++ exponent) ∧ Digits whole ∧
      FractionPart fraction ∧ ExponentPart exponent
  | .backslash, w => ∃ margin comment, w = '\\' :: (margin ++ (comment ++ ['\n'])) ∧
      (∀ c ∈ margin, isMargin c) ∧ CommentPart comment
  | .slash, w | .other, w =>
    (∃ k ∈ Kind.symbols, w = k.spelling) ∨ (∃ v, w = '/' :: '/' :: v) ∨ w = ['/', '*']

section FirstCharacter

variable {c : Char} {cs v w : List Char} {q : Pattern}

theorem class_of_isWordChar (h : isWordChar c) : isBlank c = false ∧ c ≠ '\n' := by
  have hne : ∀ d, isWordChar d = false → c ≠ d := by
    rintro d hd rfl
    rw [hd] at h
    cases h
  refine ⟨?_, hne _ (by decide)⟩
  simp [isBlank, hne ' ' (by decide), hne '\t' (by decide), hne '\r' (by decide),
    hne '\x0c' (by decide)]

theorem isWordChar_of_isWordStart (h : isWordStart c) : isWordChar c := by
  simp only [isWordStart, isWordChar, Char.isAlphanum, Bool.or_eq_true] at h ⊢
  tauto

theorem isWordChar_of_isDigit (h : c.isDigit) : isWordChar c := by
  simp [isWordChar, Char.isAlphanum, h]

theorem not_isWordStart_of_isDigit (h : c.isDigit) : isWordStart c = false := by
  have hunder : c ≠ '_' := by
    rintro rfl
    revert h
    decide
  simp only [Char.isDigit, Bool.and_eq_true, decide_eq_true_eq, ge_iff_le,
    UInt32.le_iff_toNat_le] at h
  delta isWordStart Char.isAlpha Char.isUpper Char.isLower
  simp only [hunder, decide_false, Bool.or_false, Bool.or_eq_false_iff, Bool.and_eq_false_iff,
    decide_eq_false_iff_not, ge_iff_le, UInt32.le_iff_toNat_le]
  change 48 ≤ c.toNat ∧ c.toNat ≤ 57 at h
  change ¬ (65 ≤ c.toNat ∧ c.toNat ≤ 90) ∧ (¬ 97 ≤ c.toNat ∨ ¬ c.toNat ≤ 122)
  omega

private theorem classOf_of_isWordStart (h : isWordStart c) : classOf c = .word := by
  obtain ⟨hblank, hline⟩ := class_of_isWordChar (isWordChar_of_isWordStart h)
  rw [classOf, hblank, if_neg Bool.false_ne_true, if_neg hline, if_pos h]

private theorem classOf_of_isDigit (h : c.isDigit) : classOf c = .digit := by
  obtain ⟨hblank, hline⟩ := class_of_isWordChar (isWordChar_of_isDigit h)
  rw [classOf, hblank, if_neg Bool.false_ne_true, if_neg hline, not_isWordStart_of_isDigit h,
    if_neg Bool.false_ne_true, if_pos h]

/-- The kinds with one spelling are told apart by its first character. -/
theorem opening_keyword : ∀ k ∈ Kind.keywords,
    (Pattern.token k).opening = .word ∧ k.spelling.all isWordChar := by
  decide

private theorem opening_symbol : ∀ k ∈ Kind.symbols,
    (Pattern.token k).opening = .slash ∨ (Pattern.token k).opening = .other := by
  decide

private theorem opening_spelling : ∀ k ∈ Kind.keywords ++ Kind.symbols,
    k.spelling.head?.map classOf = some (Pattern.token k).opening := by
  decide

/-- The first character of a stretch fits its shape. -/
theorem Matches.classOf_head (h : Matches q w) : w.head?.map classOf = some q.opening := by
  cases h with
  | word hk => exact opening_spelling _ (List.mem_append_left _ hk)
  | symbol hk => exact opening_spelling _ (List.mem_append_right _ hk)
  | number hwhole _ _ =>
    obtain ⟨d, ds, rfl⟩ := List.exists_cons_of_ne_nil hwhole.nonempty
    exact congrArg some (classOf_of_isDigit (hwhole.digits d List.mem_cons_self))
  | ident hc _ => exact congrArg some (classOf_of_isWordStart hc)
  | newline => rfl
  | continuation _ _ => rfl
  | blanks hne hall =>
    obtain ⟨d, ds, rfl⟩ := List.exists_cons_of_ne_nil hne
    exact congrArg some (if_pos (hall d List.mem_cons_self))
  | lineComment _ => rfl
  | commentStart => rfl

theorem Matches.shape (h : Matches q w) : Shape q.opening w := by
  cases h with
  | word hk =>
    obtain ⟨hopening, hchars⟩ := opening_keyword _ hk
    rw [hopening]
    exact fun c hc => List.all_eq_true.mp hchars c (List.mem_of_mem_tail hc)
  | symbol hk =>
    rcases opening_symbol _ hk with hopening | hopening
    · rw [hopening]
      exact .inl ⟨_, hk, rfl⟩
    · rw [hopening]
      exact .inl ⟨_, hk, rfl⟩
  | number hwhole hfraction hexponent => exact ⟨_, _, _, rfl, hwhole, hfraction, hexponent⟩
  | ident _ hcs => exact hcs
  | newline => rfl
  | continuation hmargin hcomment => exact ⟨_, _, rfl, hmargin, hcomment⟩
  | blanks _ _ => trivial
  | lineComment _ => exact .inr (.inl ⟨_, rfl⟩)
  | commentStart => exact .inr (.inr rfl)

/-- A stretch at the start of a text starts with its first character, and looks accordingly. -/
theorem Matches.exists_cons (h : Matches q w) (hw : w <+: c :: cs) :
    ∃ v, w = c :: v ∧ v <+: cs ∧ Shape (classOf c) w := by
  have hhead := h.classOf_head
  cases w with
  | nil => cases hhead
  | cons d v =>
    obtain ⟨rfl, hv⟩ := List.cons_prefix_cons.mp hw
    refine ⟨v, rfl, hv, ?_⟩
    rw [Option.some.inj hhead]
    exact h.shape

end FirstCharacter

/-! ### Runs of characters -/

section Runs

variable {p : Char → Bool} {run tail cs : List Char}

/-- A run of one class that is followed by none of it either is the whole run of a text, or stops
the stretch inside of it. -/
theorem run_split (hrun : ∀ c ∈ run, p c) (htail : ∀ c, tail.head? = some c → p c = false)
    (h : run ++ tail <+: cs) :
    (tail = [] ∧ run.length ≤ (cs.takeWhile p).length) ∨
      (run = cs.takeWhile p ∧ tail <+: cs.dropWhile p) := by
  induction run generalizing cs with
  | nil =>
    cases tail with
    | nil => exact .inl ⟨rfl, Nat.zero_le _⟩
    | cons t ts =>
      obtain ⟨rest, rfl⟩ := h
      have ht := htail t rfl
      refine .inr ⟨?_, ?_⟩
      · simp [ht]
      · simp [ht]
  | cons c run ih =>
    obtain ⟨hc, hrun⟩ := List.forall_mem_cons.mp hrun
    cases cs with
    | nil => cases List.prefix_nil.mp h
    | cons d ds =>
      obtain ⟨rfl, hds⟩ := List.cons_prefix_cons.mp h
      rw [List.takeWhile_cons_of_pos hc, List.dropWhile_cons_of_pos hc]
      rcases ih hrun hds with ⟨htail, hlength⟩ | ⟨hwhole, hrest⟩
      · exact .inl ⟨htail, Nat.succ_le_succ hlength⟩
      · exact .inr ⟨congrArg (c :: ·) hwhole, hrest⟩

private theorem length_run_le (hrun : ∀ c ∈ run, p c) (h : run <+: cs) :
    run.length ≤ (cs.takeWhile p).length := by
  have hsplit : run ++ [] <+: cs := by rwa [List.append_nil]
  rcases run_split hrun (by simp) hsplit with ⟨-, hlength⟩ | ⟨rfl, -⟩
  · exact hlength
  · exact Nat.le_refl _

theorem not_head_dropWhile {c : Char} (h : (cs.dropWhile p).head? = some c) : p c = false := by
  have := List.head?_dropWhile_not p cs
  rw [h] at this
  simpa using this

end Runs

/-! ### Words -/

section Words

variable {c : Char} {cs v w : List Char} {q : Pattern}

/-- A word is a keyword if it is spelled like one. -/
theorem matches_wordKind (hc : isWordStart c) (hcs : ∀ d ∈ cs, isWordChar d) :
    Matches (.token (wordKind (c :: cs))) (c :: cs) ∧
      (wordKind (c :: cs) = .ident → ∀ k ∈ Kind.keywords, k.spelling ≠ c :: cs) := by
  rw [wordKind]
  cases hfind : Kind.keywords.find? fun k => k.spelling = c :: cs with
  | none =>
    refine ⟨.ident hc hcs, fun _ k hk hspelling => ?_⟩
    exact List.find?_eq_none.mp hfind k hk (decide_eq_true hspelling)
  | some k =>
    have hk := List.mem_of_find?_eq_some hfind
    have hspelling : k.spelling = c :: cs := by simpa using List.find?_some hfind
    refine ⟨hspelling ▸ Matches.word hk, fun hident => ?_⟩
    obtain rfl : k = .ident := hident
    exact absurd hk (by decide)

theorem longest_word (hc : isWordStart c) :
    Longest (.token (wordKind (c :: cs.takeWhile isWordChar))) (c :: cs.takeWhile isWordChar)
      (c :: cs) where
  matches_self := (matches_wordKind hc fun _ => List.mem_takeWhile_imp).1
  starts := List.cons_prefix_cons.mpr ⟨rfl, List.takeWhile_prefix _⟩
  longest := by
    intro q w hw hfront
    obtain ⟨v, rfl, hv, hshape⟩ := hw.exists_cons hfront
    rw [classOf_of_isWordStart hc] at hshape
    apply Nat.succ_le_succ
    exact length_run_le hshape hv

theorem longest_newline : Longest (.token .newline) ['\n'] ('\n' :: cs) where
  matches_self := .newline
  starts := List.cons_prefix_cons.mpr ⟨rfl, List.nil_prefix⟩
  longest := by
    intro q w hw hfront
    obtain ⟨-, -, -, hshape⟩ := hw.exists_cons hfront
    obtain rfl : w = ['\n'] := hshape
    exact Nat.le_refl _

end Words

/-! ### Numbers -/

section Numbers

open Number.Decimal (readFraction readExponent)

variable {c : Char} {cs v w tail fraction exponent : List Char} {q : Pattern}

private theorem not_digit_head_exponent (h : ExponentPart exponent) :
    ∀ c, exponent.head? = some c → c.isDigit = false := by
  intro c hc
  cases h with
  | none => cases hc
  | some he _ _ =>
    obtain rfl := Option.some.inj hc
    rcases he with rfl | rfl <;> decide

private theorem not_digit_head_fraction (hf : FractionPart fraction) (he : ExponentPart exponent) :
    ∀ c, (fraction ++ exponent).head? = some c → c.isDigit = false := by
  intro c hc
  cases hf with
  | none => exact not_digit_head_exponent he c hc
  | some _ =>
    obtain rfl := Option.some.inj hc
    decide

private theorem digits_takeWhile (h : cs.takeWhile Char.isDigit ≠ []) :
    Digits (cs.takeWhile Char.isDigit) :=
  ⟨h, fun _ => List.mem_takeWhile_imp⟩

/-- The fraction that is read, and why no longer number starts with another one. -/
theorem readFraction_spec (cs : List Char) : ∃ fraction, FractionPart fraction ∧
    cs = fraction ++ (readFraction cs).2 ∧
    ∀ f tail, FractionPart f → ExponentPart tail → f ++ tail <+: cs →
      (tail = [] ∧ f.length ≤ fraction.length) ∨ (f = fraction ∧ tail <+: (readFraction cs).2) := by
  unfold readFraction
  split
  · rename_i rest
    split
    · rename_i hnone
      refine ⟨[], .none, rfl, fun f tail hf htail hfront => ?_⟩
      cases hf with
      | none => exact .inr ⟨rfl, hfront⟩
      | @some ds hds =>
        obtain ⟨-, hrest⟩ := List.cons_prefix_cons.mp hfront
        have hle := length_run_le hds.digits ((List.prefix_append ds tail).trans hrest)
        rw [hnone] at hle
        exact absurd (List.length_eq_zero_iff.mp (Nat.le_zero.mp hle)) hds.nonempty
    · rename_i hsome
      refine ⟨'.' :: rest.takeWhile Char.isDigit, .some (digits_takeWhile hsome),
        congrArg ('.' :: ·) List.takeWhile_append_dropWhile.symm, fun f tail hf htail hfront => ?_⟩
      cases hf with
      | none =>
        cases htail with
        | none => exact .inl ⟨rfl, Nat.zero_le _⟩
        | some he _ _ =>
          obtain ⟨rfl, -⟩ := List.cons_prefix_cons.mp hfront
          rcases he with he | he <;> cases he
      | some hds =>
        obtain ⟨-, hrest⟩ := List.cons_prefix_cons.mp hfront
        rcases run_split hds.digits (not_digit_head_exponent htail) hrest with
          ⟨hnil, hlength⟩ | ⟨rfl, hdrop⟩
        · exact .inl ⟨hnil, Nat.succ_le_succ hlength⟩
        · exact .inr ⟨rfl, hdrop⟩
  · rename_i hpoint
    refine ⟨[], .none, rfl, fun f tail hf htail hfront => ?_⟩
    cases hf with
    | none => exact .inr ⟨rfl, hfront⟩
    | some _ =>
      obtain ⟨rest, rfl⟩ := hfront
      exact absurd rfl (hpoint _)

/-- The sign of an exponent and the text after it. -/
def signOf : List Char → List Char × List Char
  | '-' :: ds => (['-'], ds)
  | '+' :: ds => (['+'], ds)
  | ds => ([], ds)

private theorem readExponent_rest {rest : List Char} (hc : c = 'e' ∨ c = 'E') :
    (readExponent (c :: rest)).2.2 =
      if (signOf rest).2.takeWhile Char.isDigit = [] then c :: rest
      else (signOf rest).2.dropWhile Char.isDigit := by
  unfold readExponent signOf
  simp only [if_pos hc]
  split <;> simp only <;> split <;> simp_all [-List.takeWhile_eq_nil_iff]

/-- Digits after a sign follow the sign that is there. -/
theorem signOf_spec (rest : List Char) :
    ((signOf rest).1 = [] ∨ (signOf rest).1 = ['+'] ∨ (signOf rest).1 = ['-']) ∧
    rest = (signOf rest).1 ++ (signOf rest).2 ∧
    ∀ sign ds, (sign = [] ∨ sign = ['+'] ∨ sign = ['-']) → Digits ds → sign ++ ds <+: rest →
      sign = (signOf rest).1 ∧ ds <+: (signOf rest).2 := by
  have hdigit : ∀ {x : Char} {xs ds : List Char}, Digits ds → ds <+: x :: xs → x.isDigit := by
    intro x xs ds hds hfront
    obtain ⟨d, ds', rfl⟩ := List.exists_cons_of_ne_nil hds.nonempty
    obtain ⟨rfl, -⟩ := List.cons_prefix_cons.mp hfront
    exact hds.digits _ List.mem_cons_self
  unfold signOf
  split
  · refine ⟨.inr (.inr rfl), rfl, ?_⟩
    rintro sign ds (rfl | rfl | rfl) hds hfront
    · exact absurd (hdigit hds hfront) (by decide)
    · simp at hfront
    · exact ⟨rfl, (List.cons_prefix_cons.mp hfront).2⟩
  · refine ⟨.inr (.inl rfl), rfl, ?_⟩
    rintro sign ds (rfl | rfl | rfl) hds hfront
    · exact absurd (hdigit hds hfront) (by decide)
    · exact ⟨rfl, (List.cons_prefix_cons.mp hfront).2⟩
    · simp at hfront
  · rename_i hminus hplus
    refine ⟨.inl rfl, rfl, ?_⟩
    rintro sign ds (rfl | rfl | rfl) hds hfront
    · exact ⟨rfl, hfront⟩
    · obtain ⟨xs, rfl⟩ := hfront
      exact absurd rfl (hplus _)
    · obtain ⟨xs, rfl⟩ := hfront
      exact absurd rfl (hminus _)

/-- The exponent that is read is the longest there is. -/
theorem readExponent_spec (cs : List Char) : ∃ exponent, ExponentPart exponent ∧
    cs = exponent ++ (readExponent cs).2.2 ∧
    ∀ x, ExponentPart x → x <+: cs → x.length ≤ exponent.length := by
  cases cs with
  | nil =>
    refine ⟨[], .none, rfl, fun x _ hfront => ?_⟩
    exact hfront.length_le
  | cons c rest =>
    by_cases hc : c = 'e' ∨ c = 'E'
    · obtain ⟨hsign, hrest, hmax⟩ := signOf_spec rest
      rw [readExponent_rest hc]
      split
      · rename_i hnone
        refine ⟨[], .none, rfl, fun x hx hfront => ?_⟩
        cases hx with
        | none => exact Nat.le_refl _
        | some he hs hds =>
          obtain ⟨-, hds'⟩ := hmax _ _ hs hds (List.cons_prefix_cons.mp hfront).2
          have hle := length_run_le hds.digits hds'
          rw [hnone] at hle
          exact absurd (List.length_eq_zero_iff.mp (Nat.le_zero.mp hle)) hds.nonempty
      · rename_i hsome
        refine ⟨c :: ((signOf rest).1 ++ (signOf rest).2.takeWhile Char.isDigit),
          .some hc hsign (digits_takeWhile hsome), ?_, fun x hx hfront => ?_⟩
        · rw [List.cons_append, List.append_assoc, List.takeWhile_append_dropWhile, ← hrest]
        · cases hx with
          | none => exact Nat.zero_le _
          | some he hs hds =>
            obtain ⟨rfl, hds'⟩ := hmax _ _ hs hds (List.cons_prefix_cons.mp hfront).2
            have hle := length_run_le hds.digits hds'
            simp only [List.length_cons, List.length_append]
            omega
    · have hread : (readExponent (c :: rest)).2.2 = c :: rest := by
        unfold readExponent
        simp only [if_neg hc]
      refine ⟨[], .none, by rw [hread]; rfl, fun x hx hfront => ?_⟩
      cases hx with
      | none => exact Nat.le_refl _
      | some he _ _ =>
        obtain ⟨rfl, -⟩ := List.cons_prefix_cons.mp hfront
        exact absurd he hc

/-- The number at the start of a text is the longest one there. -/
theorem longest_number (cs : List Char) (hc : c.isDigit) :
    ∃ w, c :: cs = w ++ (Number.Decimal.read (c :: cs)).2 ∧
      Longest (.token .number) w (c :: cs) := by
  obtain ⟨fraction, hfraction, hdrop, hmaxf⟩ :=
    readFraction_spec ((c :: cs).dropWhile Char.isDigit)
  obtain ⟨exponent, hexponent, hrest, hmaxe⟩ :=
    readExponent_spec (readFraction ((c :: cs).dropWhile Char.isDigit)).2
  have hwhole : Digits ((c :: cs).takeWhile Char.isDigit) := by
    refine digits_takeWhile ?_
    rw [List.takeWhile_cons_of_pos hc]
    exact List.cons_ne_nil _ _
  have hsplit : c :: cs = ((c :: cs).takeWhile Char.isDigit ++ (fraction ++ exponent)) ++
      (Number.Decimal.read (c :: cs)).2 := by
    show _ = _ ++ (readExponent (readFraction ((c :: cs).dropWhile Char.isDigit)).2).2.2
    rw [List.append_assoc, List.append_assoc, ← hrest, ← hdrop, List.takeWhile_append_dropWhile]
  refine ⟨_, hsplit, .number hwhole hfraction hexponent, ⟨_, hsplit.symm⟩, ?_⟩
  intro q w hw hfront
  obtain ⟨-, -, -, hshape⟩ := hw.exists_cons hfront
  rw [classOf_of_isDigit hc] at hshape
  obtain ⟨whole, f, x, rfl, hwhole', hf, hx⟩ := hshape
  -- Each part is the one that was read, or else the number stops inside of it.
  rcases run_split hwhole'.digits (not_digit_head_fraction hf hx) hfront with
    ⟨hnil, hlength⟩ | ⟨rfl, hparts⟩
  · rw [hnil, List.append_nil, List.length_append]
    exact Nat.le_add_right_of_le hlength
  · rcases hmaxf f x hf hx hparts with ⟨rfl, hlength⟩ | ⟨rfl, hpart⟩
    · simp only [List.length_append, List.length_nil]
      omega
    · have := hmaxe x hx hpart
      simp only [List.length_append]
      omega

end Numbers

end RasterScript.Token
