import RasterScript.Proofs.Token.Patterns
import RasterScript.Proofs.Token.Places

/-! A text is its tokens, its faults, and between them only blanks and comments. -/
namespace RasterScript.Token

/-! ### What a stretch of text may be taken for -/

/-- Text that is passed over before the given rest: blanks, a comment up to the end of its line, or
a comment up to its first end mark. -/
inductive Skipped : List Char → List Char → Prop where
  | blanks {w rest} : w ≠ [] → (∀ c ∈ w, isBlank c) → Skipped w rest
  | lineComment {w rest} : (∀ c ∈ w, isInLine c) → (∀ c, rest.head? = some c → c = '\n') →
      Skipped ('/' :: '/' :: w) rest
  | blockComment {w rest} : ¬ ['*', '/'] <:+: w ++ ['*'] →
      Skipped ('/' :: '*' :: (w ++ ['*', '/'])) rest

/-- A token before the given rest is the longest stretch of any shape, and a keyword if it is
spelled like one. -/
structure TokenAt (kind : Kind) (w rest : List Char) : Prop where
  longest : Longest (.token kind) w (w ++ rest)
  keyword : kind = .ident → ∀ k ∈ Kind.keywords, k.spelling ≠ w

/-- A fault before the given rest: a character that nothing starts with, a backslash with the
continuation that failed after it, or a comment without an end. -/
inductive FaultAt : Fault → List Char → List Char → Prop where
  | character {c rest} : c ≠ '\\' → Unmatched (c :: rest) →
      FaultAt (.unexpected (String.ofList [c])) [c] rest
  | backslash {margin rest} : (∀ c ∈ margin, isMargin c) →
      (∀ c, rest.head? = some c → isMargin c = false) → ¬ ['/', '/'] <+: rest →
      Unmatched ('\\' :: (margin ++ rest)) →
      FaultAt (.unexpected (String.ofList ('\\' :: margin))) ('\\' :: margin) rest
  | lastComment {margin comment} : (∀ c ∈ margin, isMargin c) → (∀ c ∈ comment, isInLine c) →
      Unmatched ('\\' :: (margin ++ '/' :: '/' :: comment)) →
      FaultAt (.unexpected (String.ofList ('\\' :: (margin ++ '/' :: '/' :: comment))))
        ('\\' :: (margin ++ '/' :: '/' :: comment)) []
  | unterminated {body} : Longest .commentStart ['/', '*'] ('/' :: '*' :: body) →
      ¬ ['*', '/'] <:+: body → FaultAt .unterminatedComment ('/' :: '*' :: body) []

/-- What a piece must be before the given rest. -/
def Fits : Role → List Char → List Char → Prop
  | .blank, w, rest => Skipped w rest
  | .token kind, w, rest => TokenAt kind w rest
  | .stray, w, rest => FaultAt (.unexpected (String.ofList w)) w rest
  | .unterminated, w, rest => FaultAt .unterminatedComment w rest

/-- A role and a number of characters cut a fitting piece from the text after `c`. -/
def Cuts (r : Role × Nat) (c : Char) (cs : List Char) : Prop :=
  ∃ u rest, cs = u ++ rest ∧ r.2 = u.length ∧ Fits r.1 (c :: u) rest

/-! ### Line ends after a backslash -/

section Backslash

variable {cs margin comment w : List Char} {q : Pattern}

/-- A comment that is followed by a line end runs to the first one. -/
theorem comment_parts (hcomment : CommentPart comment) (h : comment ++ ['\n'] <+: cs) :
    (comment = [] ∧ ∃ rest, cs = '\n' :: rest) ∨
      ∃ line rest, cs = '/' :: '/' :: line ∧ comment = '/' :: '/' :: line.takeWhile isInLine ∧
        line.dropWhile isInLine = '\n' :: rest := by
  cases hcomment with
  | none =>
    obtain ⟨rest, rfl⟩ := h
    exact .inl ⟨rfl, rest, rfl⟩
  | @some body hbody =>
    obtain ⟨rest, rfl⟩ := h
    have hline : body ++ ['\n'] <+: (body ++ ['\n']) ++ rest := List.prefix_append _ _
    rcases run_split hbody (by simp [isInLine]) hline with ⟨hnil, -⟩ | ⟨htake, hdrop⟩
    · cases hnil
    · obtain ⟨tail, htail⟩ := hdrop
      refine .inr ⟨(body ++ ['\n']) ++ rest, tail, rfl, ?_, htail.symm⟩
      rw [← htake]

/-- A continuation takes all blanks after its backslash. -/
theorem continuation_parts (h : Matches q w) (hfront : w <+: '\\' :: cs) :
    ∃ comment, w = '\\' :: (cs.takeWhile isMargin ++ (comment ++ ['\n'])) ∧
      CommentPart comment ∧ comment ++ ['\n'] <+: cs.dropWhile isMargin := by
  obtain ⟨v, rfl, hv, margin, comment, hw, hmargin, hcomment⟩ := h.exists_cons hfront
  obtain rfl := (List.cons.inj hw).2
  have hhead : ∀ c, (comment ++ ['\n']).head? = some c → isMargin c = false := by
    intro c hc
    cases hcomment with
    | none =>
      obtain rfl := Option.some.inj hc
      decide
    | some _ =>
      obtain rfl := Option.some.inj hc
      decide
  rcases run_split hmargin hhead hv with ⟨hnil, -⟩ | ⟨rfl, hrest⟩
  · simp at hnil
  · exact ⟨comment, rfl, hcomment, hrest⟩

/-- At most one continuation fits at the start of a text. -/
theorem continuation_unique {r : Pattern} {v : List Char} (hw : Matches q w)
    (hfront : w <+: '\\' :: cs) (hv : Matches r v) (hfront' : v <+: '\\' :: cs) : w = v := by
  obtain ⟨comment, rfl, hcomment, htail⟩ := continuation_parts hw hfront
  obtain ⟨other, rfl, hother, htail'⟩ := continuation_parts hv hfront'
  suffices comment = other by rw [this]
  rcases comment_parts hcomment htail with ⟨rfl, _, hcs⟩ | ⟨_, _, hcs, rfl, -⟩
  · rcases comment_parts hother htail' with ⟨rfl, -⟩ | ⟨_, _, hcs', -⟩
    · rfl
    · cases hcs.symm.trans hcs'
  · rcases comment_parts hother htail' with ⟨-, _, hcs'⟩ | ⟨_, _, hcs', rfl, -⟩
    · cases hcs.symm.trans hcs'
    · cases hcs.symm.trans hcs'
      rfl

theorem tokenAt_continuation (hmargin : ∀ c ∈ margin, isMargin c) (hcomment : CommentPart comment)
    (rest : List Char) :
    TokenAt .continuation ('\\' :: (margin ++ (comment ++ ['\n']))) rest := by
  have hself := Matches.continuation hmargin hcomment
  refine ⟨⟨hself, List.prefix_append _ _, fun q w hw hfront => ?_⟩, nofun⟩
  rw [continuation_unique hw hfront hself (List.prefix_append _ _)]

/-- Where no line end closes the blanks and the comment after a backslash, nothing fits. -/
theorem unmatched_backslash
    (h : ∀ comment, CommentPart comment → ¬ comment ++ ['\n'] <+: cs.dropWhile isMargin) :
    Unmatched ('\\' :: cs) := by
  intro q w hw hfront
  obtain ⟨comment, -, hcomment, htail⟩ := continuation_parts hw hfront
  exact h comment hcomment htail

private theorem afterBackslash_cuts (cs : List Char) : Cuts (afterBackslash cs) '\\' cs := by
  have hmargin : ∀ c ∈ cs.takeWhile isMargin, isMargin c := fun _ => List.mem_takeWhile_imp
  have hcs : cs = cs.takeWhile isMargin ++ cs.dropWhile isMargin :=
    List.takeWhile_append_dropWhile.symm
  unfold afterBackslash
  simp only
  split
  · -- The line ends after the blanks.
    rename_i rest hdrop
    rw [hdrop] at hcs
    refine ⟨cs.takeWhile isMargin ++ ['\n'], rest, ?_, by simp, ?_⟩
    · rwa [List.append_assoc, List.singleton_append]
    · exact tokenAt_continuation hmargin .none rest
  · rename_i line hdrop
    have hline : line = line.takeWhile isInLine ++ line.dropWhile isInLine :=
      List.takeWhile_append_dropWhile.symm
    have hinLine : ∀ c ∈ line.takeWhile isInLine, isInLine c := fun _ => List.mem_takeWhile_imp
    split
    · -- A comment ends the text.
      rename_i hend
      have hunmatched : Unmatched ('\\' :: cs) := by
        apply unmatched_backslash
        intro comment hcomment hfront
        rw [hdrop] at hfront
        rcases comment_parts hcomment hfront with ⟨-, _, h⟩ | ⟨_, _, h, -, hnewline⟩
        · cases h
        · cases h
          cases hend.symm.trans hnewline
      rw [hend, List.append_nil] at hline
      rw [hdrop] at hcs
      refine ⟨cs.takeWhile isMargin ++ '/' :: '/' :: line, [], ?_, ?_, ?_⟩
      · rwa [List.append_nil]
      · rw [← hline, List.length_append]
        simp only [List.length_cons]
        omega
      · exact .lastComment hmargin (hline ▸ hinLine) (hcs ▸ hunmatched)
    · -- A comment has a line after it.
      rename_i d rest hend
      have hd : d = '\n' := by
        have hhead : (line.dropWhile isInLine).head? = some d := by rw [hend]; rfl
        simpa [isInLine] using not_head_dropWhile hhead
      rw [hend, hd] at hline
      rw [hdrop] at hcs
      refine ⟨cs.takeWhile isMargin ++ ('/' :: '/' :: line.takeWhile isInLine ++ ['\n']), rest, ?_,
        ?_, tokenAt_continuation hmargin (.some hinLine) rest⟩
      · rw [List.append_assoc, List.append_assoc, List.singleton_append, List.cons_append,
          List.cons_append, ← hline]
        exact hcs
      · simp only [List.length_append, List.length_cons, List.length_nil]
        omega
  · -- Something else follows.
    rename_i hnewline hslashes
    refine ⟨cs.takeWhile isMargin, cs.dropWhile isMargin, hcs, rfl, ?_⟩
    refine .backslash hmargin (fun c => not_head_dropWhile) ?_ (hcs ▸ ?_)
    · rintro ⟨rest, hrest⟩
      exact hslashes rest hrest.symm
    · apply unmatched_backslash
      intro comment hcomment hfront
      rcases comment_parts hcomment hfront with ⟨-, rest, h⟩ | ⟨line, _, h, -⟩
      · exact hnewline rest h
      · exact hslashes line h

end Backslash

/-! ### Operators and comments -/

section Symbols

variable {c : Char} {cs w : List Char} {q : Pattern}

private theorem symbols_by_length :
    Kind.symbols.Pairwise fun k l => l.spelling.length ≤ k.spelling.length := by
  decide

/-- The symbol that is found is the longest one there. -/
theorem symbol?_eq_some {k : Kind} (h : symbol? cs = some k) :
    k ∈ Kind.symbols ∧ k.spelling <+: cs ∧
      ∀ l ∈ Kind.symbols, l.spelling <+: cs → l.spelling.length ≤ k.spelling.length := by
  obtain ⟨hk, before, after, hsymbols, hbefore⟩ := List.find?_eq_some_iff_append.mp h
  have hordered := symbols_by_length
  rw [hsymbols] at hordered
  refine ⟨by rw [hsymbols]; simp, List.isPrefixOf_iff_prefix.mp hk, fun l hl hfront => ?_⟩
  rw [hsymbols] at hl
  rcases List.mem_append.mp hl with hl | hl
  · have := hbefore l hl
    simp [List.isPrefixOf_iff_prefix.mpr hfront] at this
  · rcases List.mem_cons.mp hl with rfl | hl
    · exact Nat.le_refl _
    · exact List.rel_of_pairwise_cons (List.pairwise_append.mp hordered).2.1 hl

/-- Where only symbols fit, the longest is taken, and a character alone if none fits. -/
theorem symbolPiece_cuts (hc : c ≠ '\\')
    (honly : ∀ q w, Matches q w → w <+: c :: cs → ∃ k ∈ Kind.symbols, w = k.spelling) :
    Cuts (symbolPiece c cs) c cs := by
  rw [symbolPiece]
  cases hsymbol : symbol? (c :: cs) with
  | none =>
    refine ⟨[], cs, rfl, rfl, .character hc fun q w hw hfront => ?_⟩
    obtain ⟨k, hk, rfl⟩ := honly q w hw hfront
    exact List.find?_eq_none.mp hsymbol k hk (List.isPrefixOf_iff_prefix.mpr hfront)
  | some k =>
    obtain ⟨hk, hfront, hlongest⟩ := symbol?_eq_some hsymbol
    have hmatches := Matches.symbol hk
    obtain ⟨u, hu, ⟨rest, hrest⟩, -⟩ := hmatches.exists_cons hfront
    refine ⟨u, rest, hrest.symm, ?_, ⟨hu ▸ hmatches, List.prefix_append _ _, ?_⟩, ?_⟩
    · show k.spelling.length - 1 = u.length
      rw [hu]
      rfl
    · intro q w hw hfront
      rw [List.cons_append, hrest] at hfront
      obtain ⟨l, hl, rfl⟩ := honly q w hw hfront
      rw [← hu]
      exact hlongest l hl hfront
    · rintro rfl
      exact absurd hk (by decide)

private theorem commentLength?_eq_none (h : commentLength? cs = none) : ¬ ['*', '/'] <:+: cs := by
  fun_induction commentLength? cs with
  | case1 => simp
  | case2 => cases h
  | case3 c cs hne ih =>
    intro hinfix
    rcases List.infix_cons_iff.mp hinfix with ⟨rest, hrest⟩ | hinfix
    · cases hrest
      exact hne rest rfl rfl
    · exact ih (Option.map_eq_none_iff.mp h) hinfix

/-- The characters up to the first end mark. -/
theorem commentLength?_eq_some {n : Nat} (h : commentLength? cs = some n) :
    ∃ body rest, cs = body ++ '*' :: '/' :: rest ∧ n = body.length + 2 ∧
      ¬ ['*', '/'] <:+: body ++ ['*'] := by
  fun_induction commentLength? cs generalizing n with
  | case1 => cases h
  | case2 rest =>
    obtain rfl := Option.some.inj h
    exact ⟨[], rest, rfl, rfl, by decide⟩
  | case3 c cs hne ih =>
    obtain ⟨m, hm, rfl⟩ := Option.map_eq_some_iff.mp h
    obtain ⟨body, rest, rfl, rfl, hfirst⟩ := ih hm
    refine ⟨c :: body, rest, rfl, rfl, fun hinfix => ?_⟩
    rcases List.infix_cons_iff.mp hinfix with ⟨tail, htail⟩ | hinfix
    · cases body with
      | nil => cases htail
      | cons d body =>
        cases htail
        exact hne _ rfl rfl
    · exact hfirst hinfix

/-- No symbol is longer than the opening of a comment. -/
theorem longest_commentStart : Longest .commentStart ['/', '*'] ('/' :: '*' :: cs) where
  matches_self := .commentStart
  starts := ⟨cs, rfl⟩
  longest := by
    intro q w hw hfront
    obtain ⟨-, -, -, hshape⟩ := hw.exists_cons hfront
    rcases hshape with ⟨k, hk, rfl⟩ | ⟨v, rfl⟩ | rfl
    · have hshort : ∀ k ∈ Kind.symbols, k.spelling.length ≤ 2 := by decide
      exact hshort k hk
    · simp at hfront
    · exact Nat.le_refl _

private theorem afterSlash_cuts (cs : List Char) : Cuts (afterSlash cs) '/' cs := by
  unfold afterSlash
  split
  · rename_i rest
    refine ⟨'/' :: rest.takeWhile isInLine, rest.dropWhile isInLine, ?_, rfl, .lineComment ?_ ?_⟩
    · rw [List.cons_append, List.takeWhile_append_dropWhile]
    · exact fun _ => List.mem_takeWhile_imp
    · intro c hc
      simpa [isInLine] using not_head_dropWhile hc
  · rename_i rest
    cases hlength : commentLength? rest with
    | none =>
      refine ⟨'*' :: rest, [], (List.append_nil _).symm, rfl, ?_⟩
      exact .unterminated longest_commentStart (commentLength?_eq_none hlength)
    | some n =>
      obtain ⟨body, tail, rfl, rfl, hfirst⟩ := commentLength?_eq_some hlength
      refine ⟨'*' :: (body ++ ['*', '/']), tail, by simp, by simp, .blockComment hfirst⟩
  · rename_i hslash hstar
    apply symbolPiece_cuts (by decide)
    intro q w hw hfront
    obtain ⟨-, -, -, hshape⟩ := hw.exists_cons hfront
    rcases hshape with hsymbol | ⟨v, rfl⟩ | rfl
    · exact hsymbol
    · obtain ⟨rest, rfl⟩ := (List.cons_prefix_cons.mp hfront).2
      exact absurd rfl (hslash _)
    · obtain ⟨rest, rfl⟩ := (List.cons_prefix_cons.mp hfront).2
      exact absurd rfl (hstar _)

end Symbols

/-! ### Pieces -/

/-- The piece at the start of a text is what it must be. -/
theorem leading_cuts (c : Char) (cs : List Char) : Cuts (leading c cs) c cs := by
  unfold leading
  split
  · rename_i hblank
    refine ⟨cs.takeWhile isBlank, cs.dropWhile isBlank, List.takeWhile_append_dropWhile.symm, rfl,
      .blanks (List.cons_ne_nil _ _) ?_⟩
    exact List.forall_mem_cons.mpr ⟨hblank, fun _ => List.mem_takeWhile_imp⟩
  rename_i hblank
  split
  · rename_i hline
    subst hline
    exact ⟨[], cs, rfl, rfl, longest_newline, nofun⟩
  rename_i hline
  split
  · rename_i hword
    refine ⟨cs.takeWhile isWordChar, cs.dropWhile isWordChar, List.takeWhile_append_dropWhile.symm,
      rfl, ?_, (matches_wordKind hword fun _ => List.mem_takeWhile_imp).2⟩
    rw [List.cons_append, List.takeWhile_append_dropWhile]
    exact longest_word hword
  rename_i hword
  split
  · rename_i hdigit
    obtain ⟨w, hsplit, hlongest⟩ := longest_number cs hdigit
    obtain ⟨u, rfl, -, -⟩ := hlongest.matches_self.exists_cons hlongest.starts
    have hcs : cs = u ++ (Number.Decimal.read (c :: cs)).2 := (List.cons.inj hsplit).2
    refine ⟨u, _, hcs, ?_, ⟨hsplit ▸ hlongest, nofun⟩⟩
    have := congrArg List.length hcs
    rw [List.length_append] at this
    exact Nat.sub_eq_of_eq_add this
  rename_i hdigit
  split
  · rename_i hbackslash
    subst hbackslash
    exact afterBackslash_cuts cs
  rename_i hbackslash
  split
  · rename_i hslash
    subst hslash
    exact afterSlash_cuts cs
  rename_i hslash
  -- Only symbols start with a character of no other class.
  have hclass : classOf c = .other := by
    rw [classOf, if_neg hblank, if_neg hline, if_neg hword, if_neg hdigit, if_neg hbackslash,
      if_neg hslash]
  apply symbolPiece_cuts hbackslash
  intro q w hw hfront
  obtain ⟨v, rfl, -, hshape⟩ := hw.exists_cons hfront
  rw [hclass] at hshape
  rcases hshape with hsymbol | ⟨_, h⟩ | h
  · exact hsymbol
  · exact absurd (List.cons.inj h).1 hslash
  · exact absurd (List.cons.inj h).1 hslash

/-- The tokens and faults of a text from an offset on, each with its place, and nothing between them
but what is passed over. -/
inductive Lexed : Nat → List Char → List Token → List (Located Fault) → Prop where
  | done {n} : Lexed n [] [] []
  | skip {n w rest ts fs} : Skipped w rest → Lexed (n + byteLength w) rest ts fs →
      Lexed n (w ++ rest) ts fs
  | token {n kind w rest ts fs} : TokenAt kind w rest → Lexed (n + byteLength w) rest ts fs →
      Lexed n (w ++ rest) (⟨kind, String.ofList w, ⟨n, n + byteLength w⟩⟩ :: ts) fs
  | fault {n f w rest ts fs} : FaultAt f w rest → Lexed (n + byteLength w) rest ts fs →
      Lexed n (w ++ rest) ts (⟨f, ⟨n, n + byteLength w⟩⟩ :: fs)

private theorem piecesAfter_drop (cs : List Char) (skip : Nat) :
    piecesAfter cs skip = pieces (cs.drop skip) := by
  fun_induction piecesAfter cs skip with
  | case1 => simp [pieces, piecesAfter]
  | case2 _ _ _ ih => exact ih
  | case3 c cs role n hleading ih =>
    rw [List.drop_zero, pieces, piecesAfter, hleading]

/-- The pieces of a text, one step at a time. -/
theorem pieces_cons {c : Char} {u rest : List Char} {role : Role}
    (h : leading c (u ++ rest) = (role, u.length)) :
    pieces (c :: (u ++ rest)) = ⟨role, c :: u⟩ :: pieces rest := by
  rw [pieces, piecesAfter, h]
  simp only
  rw [piecesAfter_drop, List.take_left, List.drop_left]

theorem lexed_place (start : Nat) (cs : List Char) :
    Lexed start cs ((place start (pieces cs)).filterMap ofPiece?)
      ((place start (pieces cs)).filterMap Fault.ofPiece?) := by
  -- By induction on the length of the text, one piece at a time.
  induction hlength : cs.length using Nat.strong_induction_on generalizing start cs with
  | _ n ih =>
    cases cs with
    | nil => exact .done
    | cons c cs =>
      obtain ⟨u, rest, rfl, hn, hfits⟩ := leading_cuts c cs
      have hrest : rest.length < n := by
        simp only [List.length_cons, List.length_append] at hlength
        omega
      have htail := ih rest.length hrest (start + byteLength (c :: u)) rest rfl
      obtain ⟨role, hrole⟩ : ∃ role, (leading c (u ++ rest)).1 = role := ⟨_, rfl⟩
      rw [pieces_cons (Prod.ext hrole hn), place]
      rw [hrole] at hfits
      cases role with
      | blank => exact .skip hfits htail
      | token kind => exact .token hfits htail
      | stray => exact .fault hfits htail
      | unterminated => exact .fault hfits htail

/-! ### Places -/

/-- A span covers some characters of a text that starts at an offset, whole. -/
def Stands (n : Nat) (cs : List Char) (span : Span) : Prop :=
  ∃ before w after, cs = before ++ (w ++ after) ∧ w ≠ [] ∧
    span = ⟨n + byteLength before, n + byteLength before + byteLength w⟩

theorem byteLength_append (cs ds : List Char) :
    byteLength (cs ++ ds) = byteLength cs + byteLength ds := by
  induction cs with
  | nil => exact (Nat.zero_add _).symm
  | cons c cs ih => rw [List.cons_append, byteLength, byteLength, ih, Nat.add_assoc]

theorem byteLength_eq (cs : List Char) : byteLength cs = (String.ofList cs).utf8ByteSize := by
  induction cs with
  | nil => rfl
  | cons c cs ih =>
    rw [byteLength, ih, String.ofList_cons, String.utf8ByteSize_append,
      String.utf8ByteSize_singleton]

theorem byteLength_toList (text : String) : byteLength text.toList = text.utf8ByteSize := by
  rw [byteLength_eq, String.ofList_toList]

theorem TokenAt.ne_nil {kind : Kind} {w rest : List Char} (h : TokenAt kind w rest) : w ≠ [] := by
  rintro rfl
  cases h.longest.matches_self.classOf_head

theorem FaultAt.ne_nil {f : Fault} {w rest : List Char} (h : FaultAt f w rest) : w ≠ [] := by
  cases h <;> exact List.cons_ne_nil _ _

namespace Stands

variable {n : Nat} {w rest : List Char} {span : Span}

private theorem here (hw : w ≠ []) : Stands n (w ++ rest) ⟨n, n + byteLength w⟩ :=
  ⟨[], w, rest, rfl, hw, rfl⟩

theorem after (h : Stands (n + byteLength w) rest span) : Stands n (w ++ rest) span := by
  obtain ⟨before, v, tail, rfl, hv, rfl⟩ := h
  refine ⟨w ++ before, v, tail, (List.append_assoc _ _ _).symm, hv, ?_⟩
  rw [byteLength_append, Nat.add_assoc n]

theorem le_start (h : Stands n rest span) : n ≤ span.start := by
  obtain ⟨before, v, tail, -, -, rfl⟩ := h
  exact Nat.le_add_right _ _

end Stands

namespace Lexed

variable {n : Nat} {cs : List Char} {ts : List Token} {fs : List (Located Fault)}

theorem stands (h : Lexed n cs ts fs) :
    (∀ t ∈ ts, Stands n cs t.span) ∧ ∀ f ∈ fs, Stands n cs f.span := by
  induction h with
  | done => exact ⟨List.forall_mem_nil _, List.forall_mem_nil _⟩
  | skip _ _ ih => exact ⟨fun t ht => (ih.1 t ht).after, fun f hf => (ih.2 f hf).after⟩
  | token hw _ ih =>
    refine ⟨List.forall_mem_cons.mpr ⟨.here hw.ne_nil, fun t ht => (ih.1 t ht).after⟩, ?_⟩
    exact fun f hf => (ih.2 f hf).after
  | fault hw _ ih =>
    refine ⟨fun t ht => (ih.1 t ht).after, ?_⟩
    exact List.forall_mem_cons.mpr ⟨.here hw.ne_nil, fun f hf => (ih.2 f hf).after⟩

theorem faults_ordered (h : Lexed n cs ts fs) :
    fs.Pairwise fun f g => f.span.stop ≤ g.span.start := by
  induction h with
  | done => exact .nil
  | skip _ _ ih => exact ih
  | token _ _ ih => exact ih
  | fault _ hrest ih => exact .cons (fun f hf => (hrest.stands.2 f hf).le_start) ih

theorem apart (h : Lexed n cs ts fs) :
    ∀ t ∈ ts, ∀ f ∈ fs, t.span.stop ≤ f.span.start ∨ f.span.stop ≤ t.span.start := by
  induction h with
  | done => exact List.forall_mem_nil _
  | skip _ _ ih => exact ih
  | token _ hrest ih =>
    exact List.forall_mem_cons.mpr ⟨fun f hf => .inl (hrest.stands.2 f hf).le_start, ih⟩
  | fault _ hrest ih =>
    intro t ht
    exact List.forall_mem_cons.mpr ⟨.inr (hrest.stands.1 t ht).le_start, ih t ht⟩

end Lexed

/-- Nothing of a text is lost: it is its tokens and its faults, in order and apart, each a stretch of
whole characters, with only blanks and comments between them. Each token is the longest that any
shape fits, and a fault stands only where none does. -/
theorem scan_loses_nothing (text : String) :
    Lexed 0 text.toList (scan text).tokens (scan text).faults ∧
    ((scan text).tokens.Pairwise fun s t => s.span.stop ≤ t.span.start) ∧
    ((scan text).faults.Pairwise fun f g => f.span.stop ≤ g.span.start) ∧
    (∀ t ∈ (scan text).tokens, ∀ f ∈ (scan text).faults,
      t.span.stop ≤ f.span.start ∨ f.span.stop ≤ t.span.start) ∧
    ∀ span ∈ (scan text).tokens.map Token.span ++ (scan text).faults.map Located.span,
      ∃ before w after : String, text = before ++ w ++ after ∧ w ≠ "" ∧
        span = ⟨before.utf8ByteSize, before.utf8ByteSize + w.utf8ByteSize⟩ := by
  have hlexed : Lexed 0 text.toList (scan text).tokens (scan text).faults := lexed_place 0 _
  refine ⟨hlexed, scan_tokens_ordered text, hlexed.faults_ordered, hlexed.apart,
    fun span hspan => ?_⟩
  have hstands : Stands 0 text.toList span := by
    rcases List.mem_append.mp hspan with h | h
    · obtain ⟨t, ht, rfl⟩ := List.mem_map.mp h
      exact hlexed.stands.1 t ht
    · obtain ⟨f, hf, rfl⟩ := List.mem_map.mp h
      exact hlexed.stands.2 f hf
  obtain ⟨before, w, after, htext, hw, rfl⟩ := hstands
  refine ⟨String.ofList before, String.ofList w, String.ofList after, ?_, ?_, ?_⟩
  · rw [← String.ofList_append, ← String.ofList_append, List.append_assoc, ← htext,
      String.ofList_toList]
  · exact fun hempty => hw (String.ofList_injective hempty)
  · rw [Nat.zero_add, byteLength_eq, byteLength_eq]

end RasterScript.Token

/-- An offset between two characters of a text, or at one of its ends. -/
def RasterScript.Text.Boundary (text : String) (offset : Nat) : Prop :=
  ∃ before after : String, text = before ++ after ∧ offset = before.utf8ByteSize
