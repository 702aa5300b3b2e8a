import Mathlib
import RasterScript.Json.Read
import RasterScript.Proofs.Number.Spelling

/-! Documents read from their own texts. A well-formed document is read back from the text without
blanks, whatever follows, as long as it does not go on with a number. -/
namespace RasterScript.Json

/-! ### Strings -/

/-- What may stand between quotes. -/
inductive IsRaw : List Char → Prop
  | nil : IsRaw []
  | plain {c : Char} {raw : List Char} (hc : isPlain c) (h : IsRaw raw) : IsRaw (c :: raw)
  | short {c : Char} {raw : List Char} (hc : isShort c) (h : IsRaw raw) : IsRaw ('\\' :: c :: raw)
  | unit {a b c d : Char} {raw : List Char} (hs : [a, b, c, d].all isHex) (h : IsRaw raw) :
    IsRaw ('\\' :: 'u' :: a :: b :: c :: d :: raw)

private theorem readString_raw {raw : List Char} (h : IsRaw raw) (rest : List Char) :
    readString (raw ++ '"' :: rest) = some (raw, rest) := by
  induction h with
  | nil => rw [List.nil_append, readString]
  | @plain c raw hc h ih =>
    obtain ⟨⟨-, hquote⟩, hslash⟩ : (32 ≤ c.toNat ∧ c ≠ '"') ∧ c ≠ '\\' := by
      simpa [isPlain, Bool.and_eq_true] using hc
    rw [List.cons_append, readString, if_pos hc, ih, Option.map_some]
    · exact hquote
    · rintro a b d e cs rfl
      exact absurd rfl hslash
    · rintro d cs rfl
      exact absurd rfl hslash
  | @short c raw hc h ih =>
    have hu : c ≠ 'u' := by
      rintro rfl
      revert hc
      decide
    rw [List.cons_append, List.cons_append, readString, if_pos hc, ih, Option.map_some]
    rintro a b d e cs rfl
    exact absurd rfl hu
  | unit hs h ih =>
    simp only [List.cons_append]
    rw [readString, if_pos hs, ih, Option.map_some]

/-- A control character has four digits. -/
theorem hexDigits_control {n : ℕ} (h : n < 32) :
    ∃ a b c d, hexDigits 4 n = [a, b, c, d] ∧ [a, b, c, d].all isHex ∧ unitOf a b c d = n := by
  have hall : ∀ n < 32, (hexDigits 4 n).length = 4 ∧ (hexDigits 4 n).all isHex ∧
      (hexDigits 4 n).foldl (fun n x => 16 * n + hexValue x) 0 = n := by decide
  obtain ⟨hlength, hhex, hvalue⟩ := hall n h
  generalize hexDigits 4 n = ds at hlength hhex hvalue ⊢
  rcases ds with _ | ⟨a, _ | ⟨b, _ | ⟨c, _ | ⟨d, _ | ⟨e, ds⟩⟩⟩⟩⟩
  · cases hlength
  · cases hlength
  · cases hlength
  · cases hlength
  · exact ⟨a, b, c, d, rfl, hhex, hvalue⟩
  · cases hlength

private theorem isRaw_escapeChar (c : Char) {raw : List Char} (h : IsRaw raw) :
    IsRaw (escapeChar c ++ raw) := by
  rw [escapeChar]
  split_ifs with h₁ h₂ h₃ h₄ h₅ h₆ h₇ h₈
  · exact .short (by decide) h
  · exact .short (by decide) h
  · exact .short (by decide) h
  · exact .short (by decide) h
  · exact .short (by decide) h
  · exact .short (by decide) h
  · exact .short (by decide) h
  · obtain ⟨a, b, c', d, hdigits, hhex, -⟩ := hexDigits_control h₈
    rw [hdigits]
    exact .unit hhex h
  · refine .plain ?_ h
    rw [isPlain, Bool.and_eq_true, Bool.and_eq_true, decide_eq_true_eq]
    exact ⟨⟨not_lt.mp h₈, decide_eq_true h₁⟩, decide_eq_true h₂⟩

theorem isRaw_escape (s : String) : IsRaw (escape s) := by
  rw [escape]
  induction s.toList with
  | nil => exact .nil
  | cons c cs ih => exact isRaw_escapeChar c ih

/-- An escaped character stands for itself. -/
theorem unescape_escapeChar (c : Char) (cs : List Char) :
    unescape none (escapeChar c ++ cs) = (unescape none cs).map (c :: ·) := by
  have hcode {n : ℕ} (h : c.toNat = n) : Char.ofNat n = c := by rw [← h, Char.ofNat_toNat]
  have hshort {d : Char} (hd : d ≠ 'u') :
      unescape none ('\\' :: d :: cs) = (unescape none cs).map (shortEscape d :: ·) := by
    rw [unescape]
    rintro a b c d' cs rfl
    exact absurd rfl hd
  rw [escapeChar]
  split_ifs with h₁ h₂ h₃ h₄ h₅ h₆ h₇ h₈
  · rw [h₁]
    exact hshort (by decide)
  · rw [h₂]
    exact hshort (by decide)
  · rw [h₃]
    exact hshort (by decide)
  · rw [h₄]
    exact hshort (by decide)
  · rw [h₅]
    exact hshort (by decide)
  · rw [← hcode h₆]
    exact hshort (by decide)
  · rw [← hcode h₇]
    exact hshort (by decide)
  · obtain ⟨a, b, c', d, hdigits, -, hunit⟩ := hexDigits_control h₈
    rw [hdigits]
    show unescape none ('\\' :: 'u' :: a :: b :: c' :: d :: cs) = _
    rw [unescape]
    simp only [hunit]
    rw [if_neg, if_neg, Char.ofNat_toNat]
    · simp only [Bool.and_eq_true, decide_eq_true_eq]
      omega
    · simp only [Bool.and_eq_true, decide_eq_true_eq]
      omega
  · show unescape none (c :: cs) = _
    rw [unescape]
    · rintro a b c d cs rfl
      exact absurd rfl h₂
    · rintro d cs rfl
      exact absurd rfl h₂

theorem textOf?_escape (s : String) : textOf? (escape s) = some s := by
  have hchars : ∀ cs, unescape none (cs.flatMap escapeChar) = some cs := by
    intro cs
    induction cs with
    | nil => rfl
    | cons c cs ih => rw [List.flatMap_cons, unescape_escapeChar, ih, Option.map_some]
  rw [textOf?, escape, hchars, Option.map_some, String.ofList_toList]

/-! ### Documents -/

/-- Documents whose numbers are numbers and whose strings are strings. -/
inductive WellFormed : Json → Prop
  | null : WellFormed null
  | bool (b : Bool) : WellFormed (bool b)
  | number {literal : List Char} (h : isLiteral literal) (hchars : ∀ c ∈ literal, isNumberChar c) :
    WellFormed (number literal)
  | string {raw : List Char} (h : IsRaw raw) : WellFormed (string raw)
  | array {items : List Json} (h : ∀ j ∈ items, WellFormed j) : WellFormed (array items)
  | object {members : List (List Char × Json)} (hnames : ∀ m ∈ members, IsRaw m.1)
    (hvalues : ∀ m ∈ members, WellFormed m.2) : WellFormed (object members)

/-- A text that does not go on with a number. -/
def Ends (rest : List Char) : Prop := ∀ c ∈ rest.head?, isNumberChar c = false

private theorem readNumber_append {literal rest : List Char} (h : isLiteral literal)
    (hchars : ∀ c ∈ literal, isNumberChar c) (hrest : Ends rest) :
    readNumber (literal ++ rest) = some (literal, rest) := by
  obtain ⟨htake, hdrop⟩ := Number.Decimal.takeWhile_append hchars hrest
  simp only [readNumber, htake, hdrop, if_pos h]

/-- Read back from its text by so many steps as the text is long, twice. -/
def ReadsBack (j : Json) : Prop :=
  ∀ bound rest, 2 * j.chars.length ≤ bound → Ends rest →
    readValue bound (j.chars ++ rest) = some (j, rest)

private theorem skip_cons {c : Char} (h : isBlank c = false) (cs : List Char) :
    skip (c :: cs) = c :: cs :=
  List.dropWhile_cons_of_neg (by rw [h]; decide)

/-- The first character of a document is no blank and closes nothing. -/
theorem WellFormed.chars_eq {j : Json} (h : WellFormed j) :
    ∃ c cs, j.chars = c :: cs ∧ isBlank c = false ∧ c ≠ ']' ∧ c ≠ '\x7d' := by
  cases h with
  | null => exact ⟨_, _, rfl, by decide⟩
  | bool b => cases b <;> exact ⟨_, _, rfl, by decide⟩
  | @number literal h hchars =>
    cases literal with
    | nil => cases h
    | cons c cs =>
      refine ⟨c, cs, rfl, ?_⟩
      have hc := hchars c List.mem_cons_self
      refine ⟨?_, ?_, ?_⟩
      · rw [← Bool.not_eq_true]
        intro hblank
        simp only [isBlank, Bool.or_eq_true, decide_eq_true_eq] at hblank
        rcases hblank with ((rfl | rfl) | rfl) | rfl <;> revert hc <;> decide
      · rintro rfl
        revert hc
        decide
      · rintro rfl
        revert hc
        decide
  | string h => exact ⟨_, _, rfl, by decide⟩
  | array h => exact ⟨_, _, rfl, by decide⟩
  | object hnames hvalues => exact ⟨_, _, rfl, by decide⟩

private theorem readValue_number {literal : List Char} (h : isLiteral literal)
    (hchars : ∀ c ∈ literal, isNumberChar c) (bound : ℕ) {rest : List Char} (hrest : Ends rest) :
    readValue (bound + 1) (literal ++ rest) = some (number literal, rest) := by
  obtain ⟨c, cs, hcs, hblank, -⟩ := (WellFormed.number h hchars).chars_eq
  have hc := hchars c (show c ∈ chars (.number literal) from hcs ▸ List.mem_cons_self)
  have hskip : skip (literal ++ rest) = literal ++ rest := by
    show skip (chars (.number literal) ++ rest) = chars (.number literal) ++ rest
    rw [hcs]
    exact skip_cons hblank _
  have hread := readNumber_append h hchars hrest
  have hhead : (literal ++ rest).head? = some c := by
    show (chars (.number literal) ++ rest).head? = some c
    rw [hcs]
    rfl
  rw [readValue, hskip]
  generalize literal ++ rest = text at hread hhead
  -- No other document starts with a character of a number.
  split
  case h_7 => rw [hread, Option.map_some]
  all_goals
    cases hhead
    exact absurd hc (by decide)

/-- A text that goes on with a comma or a bracket does not go on with a number. -/
theorem ends_cons {c : Char} (h : isNumberChar c = false) (cs : List Char) : Ends (c :: cs) := by
  rintro d ⟨⟩
  exact h

private theorem readItems_append {items : List Json} (hne : items ≠ [])
    (hback : ∀ j ∈ items, ReadsBack j) {bound : ℕ}
    (hbound : 2 * (itemChars items).length + 1 ≤ bound) (rest : List Char) :
    readItems bound (itemChars items ++ ']' :: rest) = some (items, rest) := by
  induction items generalizing bound with
  | nil => exact absurd rfl hne
  | cons j js ih =>
    obtain ⟨bound, rfl⟩ : ∃ k, bound = k + 1 := ⟨bound - 1, by omega⟩
    have hj := hback j List.mem_cons_self
    cases js with
    | nil =>
      rw [itemChars] at hbound ⊢
      rw [readItems, hj bound _ (by omega) (ends_cons (by decide) _)]
      rfl
    | cons k ks =>
      have hchars : itemChars (j :: k :: ks) = j.chars ++ ',' :: itemChars (k :: ks) := by
        rw [itemChars]
        rintro ⟨⟩
      rw [hchars, List.length_append, List.length_cons] at hbound
      have hrest : readItems bound (itemChars (k :: ks) ++ ']' :: rest) = some (k :: ks, rest) :=
        ih (List.cons_ne_nil k ks) (fun i hi => hback i (List.mem_cons_of_mem _ hi)) (by omega)
      rw [hchars, List.append_assoc, List.cons_append, readItems,
        hj bound _ (by omega) (ends_cons (by decide) _)]
      show (readItems bound (itemChars (k :: ks) ++ ']' :: rest) >>= fun p =>
        some (j :: p.1, p.2)) = _
      rw [hrest]
      rfl

private theorem pairChars_append (name : List Char) (value : Json) (rest : List Char) :
    pairChars (name, value) ++ rest = '"' :: (name ++ '"' :: ':' :: (value.chars ++ rest)) := by
  rw [pairChars, quote]
  simp

section Members

variable {name : List Char} {value : Json} (hname : IsRaw name) (hvalue : ReadsBack value)
  {bound : ℕ} (hbound : 2 * value.chars.length ≤ bound) (rest : List Char)
include hname hvalue hbound

private theorem readMembers_last :
    readMembers (bound + 1) (pairChars (name, value) ++ '\x7d' :: rest) =
      some ([(name, value)], rest) := by
  rw [pairChars_append, readMembers, skip_cons (by decide)]
  show (readString (name ++ '"' :: ':' :: (value.chars ++ '\x7d' :: rest)) >>= _) = _
  rw [readString_raw hname]
  show (readValue bound (value.chars ++ '\x7d' :: rest) >>= _) = _
  rw [hvalue bound _ hbound (ends_cons (by decide) _)]
  rfl

private theorem readMembers_more :
    readMembers (bound + 1) (pairChars (name, value) ++ ',' :: rest) =
      (readMembers bound rest).map fun p => ((name, value) :: p.1, p.2) := by
  rw [pairChars_append, readMembers, skip_cons (by decide)]
  show (readString (name ++ '"' :: ':' :: (value.chars ++ ',' :: rest)) >>= _) = _
  rw [readString_raw hname]
  show (readValue bound (value.chars ++ ',' :: rest) >>= _) = _
  rw [hvalue bound _ hbound (ends_cons (by decide) _)]
  show (readMembers bound rest >>= fun p => some ((name, value) :: p.1, p.2)) = _
  cases readMembers bound rest <;> rfl

end Members

private theorem readMembers_append {members : List (List Char × Json)} (hne : members ≠ [])
    (hnames : ∀ m ∈ members, IsRaw m.1) (hback : ∀ m ∈ members, ReadsBack m.2) {bound : ℕ}
    (hbound : 2 * (memberChars members).length + 1 ≤ bound) (rest : List Char) :
    readMembers bound (memberChars members ++ '\x7d' :: rest) = some (members, rest) := by
  induction members generalizing bound with
  | nil => exact absurd rfl hne
  | cons m ms ih =>
    obtain ⟨bound, rfl⟩ : ∃ k, bound = k + 1 := ⟨bound - 1, by omega⟩
    obtain ⟨name, value⟩ := m
    have hname : IsRaw name := hnames _ List.mem_cons_self
    have hvalue : ReadsBack value := hback _ List.mem_cons_self
    have hlength : value.chars.length ≤ (pairChars (name, value)).length := by
      rw [pairChars, List.length_append, List.length_cons]
      omega
    cases ms with
    | nil =>
      rw [memberChars] at hbound ⊢
      exact readMembers_last hname hvalue (by omega) rest
    | cons k ks =>
      have hchars : memberChars ((name, value) :: k :: ks) =
          pairChars (name, value) ++ ',' :: memberChars (k :: ks) := by
        rw [memberChars]
        rintro ⟨⟩
      rw [hchars, List.length_append, List.length_cons] at hbound
      have hrest : readMembers bound (memberChars (k :: ks) ++ '\x7d' :: rest) =
          some (k :: ks, rest) :=
        ih (List.cons_ne_nil k ks) (fun i hi => hnames i (List.mem_cons_of_mem _ hi))
          (fun i hi => hback i (List.mem_cons_of_mem _ hi)) (by omega)
      rw [hchars, List.append_assoc, List.cons_append,
        readMembers_more hname hvalue (by omega), hrest]
      rfl

private theorem itemChars_eq {items : List Json} (hne : items ≠ [])
    (h : ∀ j ∈ items, WellFormed j) :
    ∃ c cs, itemChars items = c :: cs ∧ isBlank c = false ∧ c ≠ ']' := by
  obtain ⟨j, js, rfl⟩ := List.exists_cons_of_ne_nil hne
  obtain ⟨c, cs, hc, hblank, hclose, -⟩ := (h j List.mem_cons_self).chars_eq
  cases js with
  | nil =>
    rw [itemChars, hc]
    exact ⟨c, cs, rfl, hblank, hclose⟩
  | cons k ks =>
    rw [itemChars, hc]
    · exact ⟨c, _, rfl, hblank, hclose⟩
    · rintro ⟨⟩

private theorem memberChars_eq {members : List (List Char × Json)} (hne : members ≠ []) :
    ∃ cs, memberChars members = '"' :: cs := by
  obtain ⟨⟨name, value⟩, ms, rfl⟩ := List.exists_cons_of_ne_nil hne
  cases ms with
  | nil => exact ⟨_, rfl⟩
  | cons m ms =>
    rw [memberChars, pairChars]
    · exact ⟨_, rfl⟩
    · rintro ⟨⟩

/-- A document is not empty, so some step is left for it. -/
theorem WellFormed.readsBack_of_succ {j : Json} (hwell : WellFormed j)
    (h : ∀ bound rest, 2 * j.chars.length ≤ bound + 1 → Ends rest →
      readValue (bound + 1) (j.chars ++ rest) = some (j, rest)) : ReadsBack j := by
  obtain ⟨c, cs, hchars, -⟩ := hwell.chars_eq
  intro bound rest hbound hrest
  cases bound with
  | zero =>
    rw [hchars, List.length_cons] at hbound
    omega
  | succ bound => exact h bound rest hbound hrest

private theorem readsBack_array {items : List Json} (h : ∀ j ∈ items, WellFormed j)
    (hback : ∀ j ∈ items, ReadsBack j) : ReadsBack (array items) := by
  refine (WellFormed.array h).readsBack_of_succ fun bound rest hbound hrest => ?_
  have hchars : (array items).chars ++ rest = '[' :: (itemChars items ++ ']' :: rest) := by
    rw [chars]
    simp
  rw [chars, List.length_cons, List.length_append, List.length_singleton] at hbound
  rw [hchars, readValue, skip_cons (by decide)]
  by_cases hne : items = []
  · subst hne
    rfl
  · obtain ⟨c, cs, hc, hblank, hclose⟩ := itemChars_eq hne h
    have hread : readItems bound (itemChars items ++ ']' :: rest) = some (items, rest) :=
      readItems_append hne hback (by omega) rest
    rw [hc, List.cons_append] at hread ⊢
    simp only [skip_cons hblank]
    split
    · next heq =>
      cases heq
      exact absurd rfl hclose
    · rw [hread, Option.map_some]

private theorem readsBack_object {members : List (List Char × Json)}
    (hnames : ∀ m ∈ members, IsRaw m.1) (hvalues : ∀ m ∈ members, WellFormed m.2)
    (hback : ∀ m ∈ members, ReadsBack m.2) : ReadsBack (object members) := by
  refine (WellFormed.object hnames hvalues).readsBack_of_succ fun bound rest hbound hrest => ?_
  have hchars : (object members).chars ++ rest =
      '\x7b' :: (memberChars members ++ '\x7d' :: rest) := by
    rw [chars]
    simp
  rw [chars, List.length_cons, List.length_append, List.length_singleton] at hbound
  rw [hchars, readValue, skip_cons (by decide)]
  by_cases hne : members = []
  · subst hne
    rfl
  · obtain ⟨cs, hc⟩ := memberChars_eq hne
    have hread : readMembers bound (memberChars members ++ '\x7d' :: rest) =
        some (members, rest) :=
      readMembers_append hne hnames hback (by omega) rest
    rw [hc, List.cons_append] at hread ⊢
    simp only [skip_cons (show isBlank '"' = false by decide)]
    split
    · next heq => exact absurd (List.cons.inj heq).1 (by decide)
    · rw [hread, Option.map_some]

/-- Every well-formed document is read back from its text. -/
theorem WellFormed.readsBack {j : Json} (h : WellFormed j) : ReadsBack j := by
  induction h with
  | null =>
    refine WellFormed.null.readsBack_of_succ fun bound rest hbound hrest => ?_
    rw [readValue]
    rfl
  | bool b =>
    refine (WellFormed.bool b).readsBack_of_succ fun bound rest hbound hrest => ?_
    rw [readValue]
    cases b <;> rfl
  | number h hchars =>
    refine (WellFormed.number h hchars).readsBack_of_succ fun bound rest hbound hrest => ?_
    exact readValue_number h hchars bound hrest
  | @string raw h =>
    refine (WellFormed.string h).readsBack_of_succ fun bound rest hbound hrest => ?_
    have hchars : (Json.string raw).chars ++ rest = '"' :: (raw ++ '"' :: rest) := by
      rw [chars, quote]
      simp
    rw [hchars, readValue, skip_cons (by decide)]
    show (readString (raw ++ '"' :: rest)).map _ = _
    rw [readString_raw h]
    rfl
  | array h ih => exact readsBack_array h ih
  | object hnames hvalues ih => exact readsBack_object hnames hvalues ih

/-- Reading undoes writing. -/
theorem read_compact {j : Json} (h : WellFormed j) : read j.compact = some j := by
  have hback := h.readsBack (2 * j.chars.length + 2) [] (by omega) (by rintro c ⟨⟩)
  rw [List.append_nil] at hback
  rw [read, compact, String.toList_ofList]
  simp only [hback]
  rfl

end RasterScript.Json
