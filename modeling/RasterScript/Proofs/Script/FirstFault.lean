import RasterScript.Proofs.Script.Locality
import RasterScript.Proofs.Script.Neighbours
import RasterScript.Proofs.Script.Viability

/-! A syntax error points at the first token that cannot stand where it does: what is before it
begins a statement, and what ends with it begins none. -/
namespace RasterScript.Script

open Token.Reader Grammar Script.Derivation

variable {A : Groups} {dialect : Dialect} {ts c pre rest tokens : List Token} {t : Token} {i : Item}

/-- Tokens that some more tokens, perhaps none, make a complete statement. -/
def Begins (ts : List Token) : Prop := ∃ more i, TopStatement anyGroups (ts ++ more) i

/-- Up to the place `n` the tokens begin a statement, with the token there they begin none, and at
the end there is no token but the statement is not complete. -/
structure FirstImpossible (tokens : List Token) (n : Nat) : Prop where
  le_length : n ≤ tokens.length
  begins : Begins (tokens.take n)
  stops : n < tokens.length → ¬ Begins (tokens.take (n + 1))
  incomplete : n = tokens.length → ∀ i, ¬ TopStatement anyGroups tokens i

theorem FirstImpossible.of_cons {xs : List Token} (hbegins : Begins pre)
    (hstops : ∀ more i, ¬ TopStatement anyGroups (pre ++ t :: more) i) :
    FirstImpossible (pre ++ t :: xs) pre.length where
  le_length := by simp
  begins := by rwa [List.take_left]
  stops _ := by
    rintro ⟨more, i, hi⟩
    rw [List.append_cons, List.take_left' (by simp), ← List.append_cons] at hi
    exact hstops more i hi
  incomplete h := by simp at h

/-! ### Where nothing fits -/

private theorem item_of_derived (h : TopStatement A ts i) : item ts = .read i [] := by
  have hread : item (ts ++ []) = .read i [] := h.read fun _ => rfl
  rwa [List.append_nil] at hread

/-- A token at which the reader of items gets stuck fits no statement that begins as it should. -/
theorem not_derived_of_stuck {xs : List Token} (hr : item (pre ++ t :: xs) = .stuck (t :: xs))
    (more : List Token) (i : Item) : ¬ TopStatement anyGroups (pre ++ t :: more) i := by
  intro hi
  have hread := item_of_derived hi
  rw [item_stuck hr more] at hread
  cases hread

private theorem stuck_at_first_impossible (hr : item tokens = .stuck rest) :
    ∃ n, FirstImpossible tokens n ∧ tokens.drop n = rest := by
  obtain ⟨pre, more, i, rfl, hi⟩ := item_viable.stuck tokens rest hr
  refine ⟨pre.length, ?_, List.drop_left⟩
  cases rest with
  | cons t xs => exact .of_cons ⟨more, i, hi⟩ (not_derived_of_stuck hr)
  | nil =>
    rw [List.append_nil] at hr ⊢
    refine ⟨le_rfl, ⟨more, i, by rwa [List.take_length]⟩, fun h => absurd h (lt_irrefl _), ?_⟩
    intro _ j hj
    rw [item_of_derived hj] at hr
    cases hr

/-! ### Where a statement is complete too soon -/

/-- The reader of items takes an `else` that can follow. -/
theorem item_noElse (hr : item ts = .read i rest) : itemEndsOpen i → elseFollows rest = false := by
  rw [item, peek_bind] at hr
  generalize ts.head?.map Token.kind = ahead at hr
  split at hr
  all_goals simp only [bind_eq_read, pure_eq_read, sized_apply] at hr
  · obtain ⟨k, us, -, body, vs, -, rfl, -⟩ := hr
    exact fun h => by cases h
  · obtain ⟨k, us, -, body, vs, -, rfl, -⟩ := hr
    exact fun h => by cases h
  · obtain ⟨k, us, -, body, vs, -, rfl, -⟩ := hr
    exact fun h => by cases h
  · obtain ⟨s, us, hs, rfl, rfl⟩ := hr
    exact (statement_sound _ hs).2

/-- A chunk goes on after a complete statement only with an `else`. -/
theorem elseFollows_of_chunk (hc : chunks c = [c]) (hi : TopStatement A pre i)
    (hsplit : c = pre ++ t :: rest) : elseFollows (t :: rest) := by
  by_contra hnone
  have hcut := hi.chunksAt_eq (t :: rest)
  rw [cut, if_pos ⟨rfl, by simpa using hnone⟩, ← hsplit] at hcut
  rw [chunks, hcut] at hc
  exact chunksAt_ne_nil 0 t rest (List.cons.inj hc).2

/-- The same of a chunk that may have been closed with a line end. -/
theorem elseFollows_of_closed (hc : chunks c = [c]) (hi : TopStatement A pre i)
    (hsplit : closed dialect c = pre ++ t :: rest) : elseFollows (t :: rest) := by
  unfold closed at hsplit
  split at hsplit
  · next hopen =>
    obtain hlast | ⟨body, n, hlast⟩ := List.eq_nil_or_concat (t :: rest)
    · cases hlast
    · rw [List.concat_eq_append] at hlast
      rw [hlast, ← List.append_assoc] at hsplit
      obtain ⟨rfl, hn⟩ := List.append_inj' hsplit rfl
      obtain rfl := List.singleton_inj.mp hn
      rw [hlast, elseFollows_concat rfl]
      cases body with
      | nil => simp [hi.ends.isClosed_eq] at hopen
      | cons s body => exact elseFollows_of_chunk hc hi rfl
  · exact elseFollows_of_chunk hc hi hsplit

private theorem read_at_first_impossible (hc : chunks c = [c])
    (hr : item (closed dialect c) = .read i (t :: rest)) :
    ∃ n, FirstImpossible (closed dialect c) n ∧ (closed dialect c).drop n = t :: rest := by
  obtain ⟨pre, hsplit, hi⟩ := item_sound _ _ _ hr
  have helse := elseFollows_of_closed hc hi hsplit
  have hclosed : itemEndsOpen i = false := by
    rw [← Bool.not_eq_true]
    intro hopen
    rw [item_noElse hr hopen] at helse
    cases helse
  rw [hsplit]
  refine ⟨pre.length, .of_cons ⟨[], i, by rwa [List.append_nil]⟩ fun more j hj => ?_,
    List.drop_left⟩
  -- What is complete and closed is read as it is before any other tokens too.
  have hfirst : item (pre ++ t :: more) = .read i (t :: more) := hi.read (by simp [hclosed])
  rw [item_of_derived hj] at hfirst
  cases hfirst

/-! ### Errors of a script -/

private theorem error_at_first_impossible {f : Located Fault} (hc : chunks c = [c])
    (hr : readItem (closed dialect c) = .error f) :
    ∃ n, FirstImpossible (closed dialect c) n ∧
      f = faultAt (closed dialect c) ((closed dialect c).drop n) := by
  unfold readItem at hr
  split at hr
  · cases hr
  · next i rest hne hread =>
    cases hr
    obtain ⟨t, rest, rfl⟩ := List.exists_cons_of_ne_nil hne
    obtain ⟨n, hn, hdrop⟩ := read_at_first_impossible hc hread
    exact ⟨n, hn, by rw [hdrop]⟩
  · next rest hread =>
    cases hr
    obtain ⟨n, hn, hdrop⟩ := stuck_at_first_impossible hread
    exact ⟨n, hn, by rw [hdrop]⟩

private theorem piece_at_first_impossible {f : Located Fault} (htokens : tokens ∈ pieces dialect ts)
    (hr : readItem tokens = .error f) :
    ∃ n, FirstImpossible tokens n ∧ f = faultAt tokens (tokens.drop n) := by
  obtain ⟨c, hc, rfl⟩ := List.mem_map.mp htokens
  exact error_at_first_impossible (chunks_of_mem (List.mem_of_mem_filter hc)) hr

/-- What cannot be read of a script is reported at the first token that cannot stand where it does,
or at the end where more is needed: of every chunk that is not blank, and so of every syntax error
of a text. -/
theorem errors_at_first_impossible_token (dialect : Dialect) :
    (∀ ts, ∀ tokens ∈ pieces dialect ts, ∀ f, readItem tokens = .error f →
      ∃ n, FirstImpossible tokens n ∧ f = faultAt tokens (tokens.drop n)) ∧
    ∀ text, ∀ d ∈ (parse text dialect).diagnostics, d.code = some "E0002" →
      ∃ tokens ∈ pieces dialect ((Token.scan text).frame dialect).tokens,
        ∃ n, FirstImpossible tokens n ∧ d = Fault.diagnostic (faultAt tokens (tokens.drop n)) := by
  refine ⟨fun ts tokens htokens f hr => piece_at_first_impossible htokens hr, ?_⟩
  intro text d hd hcode
  have hreport : d ∈ reportsOf dialect ((Token.scan text).frame dialect).tokens := by
    rw [← syntaxErrors_eq, List.mem_filter]
    exact ⟨hd, by simpa using hcode⟩
  obtain ⟨f, hf, rfl⟩ := List.mem_map.mp hreport
  obtain ⟨result, hresult, hfault⟩ := List.mem_filterMap.mp hf
  rw [readItems_eq] at hresult
  obtain ⟨tokens, htokens, rfl⟩ := List.mem_map.mp hresult
  cases hr : readItem tokens with
  | ok i =>
    rw [hr] at hfault
    cases hfault
  | error g =>
    rw [hr] at hfault
    cases hfault
    obtain ⟨n, hn, hat⟩ := piece_at_first_impossible htokens hr
    exact ⟨tokens, htokens, n, hn, by rw [hat]⟩

/-- A second `else` after an `if` that has one. -/
def secondElse : String := "if (a) b = 1;\nelse c = 2;\n\nelse d = 3;\n"

theorem secondElse_ends_at_line :
    let d : Diagnostic := ⟨some "E0002", .error, ⟨25, 26⟩, "unexpected end of line"⟩
    d ∈ (parse secondElse .extended).diagnostics ∧
      ∃ tokens ∈ pieces .extended ((Token.scan secondElse).frame .extended).tokens,
        ∃ n, FirstImpossible tokens n ∧ d = Fault.diagnostic (faultAt tokens (tokens.drop n)) := by
  have hd : (⟨some "E0002", .error, ⟨25, 26⟩, "unexpected end of line"⟩ : Diagnostic) ∈
      (parse secondElse .extended).diagnostics := by
    decide +kernel
  exact ⟨hd, (errors_at_first_impossible_token .extended).2 secondElse _ hd rfl⟩

end RasterScript.Script
