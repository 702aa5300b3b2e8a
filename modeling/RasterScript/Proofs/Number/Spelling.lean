import Mathlib
import RasterScript.Number.Text

/-! Texts of decimals by their parts. Every way to write a decimal spells its digits, with zeros
where the point needs them, and reading the text finds the same parts. -/
namespace RasterScript.Number.Decimal

/-! ### Digits -/

/-- Nothing but decimal digits. -/
def AllDigits (cs : List Char) : Prop := ∀ c ∈ cs, c.isDigit = true

private theorem natOfDigits_eq (cs : List Char) : natOfDigits cs = Nat.ofDigitChars 10 cs 0 := rfl

theorem natOfDigits_toDigits (n : ℕ) : natOfDigits (Nat.toDigits 10 n) = n := by
  rw [natOfDigits_eq, Nat.ofDigitChars_ten_toDigits]

theorem natOfDigits_append (cs ds : List Char) :
    natOfDigits (cs ++ ds) = 10 ^ ds.length * natOfDigits cs + natOfDigits ds := by
  simp only [natOfDigits_eq]
  rw [Nat.ofDigitChars_append, Nat.ofDigitChars_eq_ofDigitChars_zero]

theorem natOfDigits_replicate (n : ℕ) : natOfDigits (List.replicate n '0') = 0 := by
  rw [natOfDigits_eq, Nat.ofDigitChars_replicate_zero, Nat.mul_zero]

theorem allDigits_toDigits (n : ℕ) : AllDigits (Nat.toDigits 10 n) :=
  fun _ => Nat.isDigit_of_mem_toDigits (by decide) (by decide)

theorem allDigits_replicate (n : ℕ) : AllDigits (List.replicate n '0') := by
  intro c hc
  rw [List.eq_of_mem_replicate hc]
  decide

theorem AllDigits.append {cs ds : List Char} (hcs : AllDigits cs) (hds : AllDigits ds) :
    AllDigits (cs ++ ds) := by
  intro c hc
  obtain h | h := List.mem_append.mp hc
  · exact hcs c h
  · exact hds c h

/-- A positive number does not start with a zero. -/
theorem toDigits_eq_cons {n : ℕ} (h : 0 < n) :
    ∃ d ds, Nat.toDigits 10 n = d :: ds ∧ d ≠ '0' := by
  induction n using Nat.strong_induction_on with
  | _ n ih =>
    by_cases hn : n < 10
    · refine ⟨n.digitChar, [], Nat.toDigits_of_lt_base hn, ?_⟩
      interval_cases n <;> decide
    · obtain ⟨d, ds, hdigits, hd⟩ := ih (n / 10) (by omega) (by omega)
      rw [Nat.toDigits_of_base_le (by decide) (by omega), hdigits]
      exact ⟨d, _, rfl, hd⟩

theorem toDigits_ne_nil (n : ℕ) : Nat.toDigits 10 n ≠ [] :=
  List.ne_nil_of_length_pos Nat.length_toDigits_pos

/-! ### Parts -/

/-- Digits after a point, if there are any. -/
def fractionChars (fraction : List Char) : List Char :=
  if fraction.isEmpty then [] else '.' :: fraction

/-- A power of ten after its letter, if there is one. -/
def exponentChars (plus negative : Bool) (exponent : List Char) : List Char :=
  if exponent.isEmpty then []
  else 'e' :: ((if negative then ['-'] else if plus then ['+'] else []) ++ exponent)

/-- The text of the parts. -/
def Spelling.chars (plus : Bool) (s : Spelling) : List Char :=
  s.whole ++ (fractionChars s.fraction ++ exponentChars plus s.exponentNegative s.exponent)

/-- Parts that are digits, with a whole part that has no zero in front of others. -/
structure Spelling.Valid (s : Spelling) : Prop where
  whole : AllDigits s.whole
  fraction : AllDigits s.fraction
  exponent : AllDigits s.exponent
  /-- Without a power of ten there is no sign. -/
  unsigned : s.exponent = [] → s.exponentNegative = false
  leading : s.whole = ['0'] ∨ ∃ d ds, s.whole = d :: ds ∧ d ≠ '0'

/-- The first part of a text that a predicate takes. -/
theorem takeWhile_append {p : Char → Bool} {cs rest : List Char} (h : ∀ c ∈ cs, p c = true)
    (hrest : ∀ c ∈ rest.head?, p c = false) :
    (cs ++ rest).takeWhile p = cs ∧ (cs ++ rest).dropWhile p = rest := by
  rw [List.takeWhile_append_of_pos h, List.dropWhile_append_of_pos h]
  cases rest with
  | nil => exact ⟨List.append_nil cs, rfl⟩
  | cons c rest =>
    have hc := hrest c rfl
    rw [List.takeWhile_cons_of_neg (by rw [hc]; decide),
      List.dropWhile_cons_of_neg (by rw [hc]; decide)]
    exact ⟨List.append_nil cs, rfl⟩

theorem AllDigits.takeWhile_eq {cs : List Char} (h : AllDigits cs) :
    cs.takeWhile Char.isDigit = cs ∧ cs.dropWhile Char.isDigit = [] := by
  have hall := @takeWhile_append _ cs [] h (by rintro c ⟨⟩)
  rwa [List.append_nil] at hall

private theorem readExponent_chars (plus negative : Bool) {exponent : List Char}
    (h : AllDigits exponent) (hnegative : exponent = [] → negative = false) :
    readExponent (exponentChars plus negative exponent) = (negative, exponent, []) := by
  obtain ⟨htake, hdrop⟩ := h.takeWhile_eq
  cases exponent with
  | nil =>
    rw [hnegative rfl]
    rfl
  | cons d ds =>
    have hd := h d List.mem_cons_self
    cases negative with
    | true =>
      show readExponent ('e' :: '-' :: d :: ds) = _
      rw [readExponent, if_pos (.inl rfl)]
      simp only [htake, hdrop]
    | false =>
      cases plus with
      | true =>
        show readExponent ('e' :: '+' :: d :: ds) = _
        rw [readExponent, if_pos (.inl rfl)]
        simp only [htake, hdrop]
      | false =>
        show readExponent ('e' :: d :: ds) = _
        rw [readExponent, if_pos (.inl rfl)]
        · simp only [htake, hdrop]
        · rintro es ⟨⟩
          exact absurd hd (by decide)
        · rintro es ⟨⟩
          exact absurd hd (by decide)

private theorem head?_exponentChars {plus negative : Bool} {exponent : List Char} {c : Char}
    (h : c ∈ (exponentChars plus negative exponent).head?) : c = 'e' := by
  rw [exponentChars] at h
  split at h
  · cases h
  · cases h
    rfl

private theorem readFraction_chars (plus negative : Bool) {fraction : List Char}
    (h : AllDigits fraction) (exponent : List Char) :
    readFraction (fractionChars fraction ++ exponentChars plus negative exponent) =
      (fraction, exponentChars plus negative exponent) := by
  have hstop : ∀ c ∈ (exponentChars plus negative exponent).head?, c.isDigit = false := by
    intro c hc
    rw [head?_exponentChars hc]
    decide
  obtain ⟨htake, hdrop⟩ := takeWhile_append h hstop
  cases fraction with
  | nil =>
    show readFraction (exponentChars plus negative exponent) = _
    rw [readFraction]
    intro cs hcs
    have hhead := head?_exponentChars (show '.' ∈ (exponentChars plus negative exponent).head? by
      rw [hcs, List.head?_cons, Option.mem_some_iff])
    exact absurd hhead (by decide)
  | cons d ds =>
    show readFraction ('.' :: (d :: ds ++ exponentChars plus negative exponent)) = _
    rw [readFraction]
    simp only [htake, hdrop]

/-- Reading a text finds the parts it was put together from. -/
theorem read_chars (plus : Bool) {s : Spelling} (h : s.Valid) : read (s.chars plus) = (s, []) := by
  have hstop : ∀ c ∈ (fractionChars s.fraction ++
      exponentChars plus s.exponentNegative s.exponent).head?, c.isDigit = false := by
    intro c hc
    rw [fractionChars] at hc
    split at hc
    · rw [List.nil_append] at hc
      rw [head?_exponentChars hc]
      decide
    · cases hc
      decide
  obtain ⟨htake, hdrop⟩ := takeWhile_append h.whole hstop
  rw [read, Spelling.chars]
  simp only [htake, hdrop, readFraction_chars plus s.exponentNegative h.fraction,
    readExponent_chars plus s.exponentNegative h.exponent h.unsigned]

/-! ### The texts of decimals -/

/-- The number that a decimal is. -/
def value (d : Decimal) : ℚ := d.digits * 10 ^ d.exponent

/-- The same number with zeros after its digits. -/
def padded (d : Decimal) (zeros : ℕ) : Decimal := ⟨d.digits * 10 ^ zeros, d.exponent - zeros⟩

theorem padded_zero (d : Decimal) : d.padded 0 = d := by
  rw [padded, pow_zero, Nat.mul_one, Nat.cast_zero, sub_zero]

theorem value_padded (d : Decimal) (zeros : ℕ) : (d.padded zeros).value = d.value := by
  have hten : (10 : ℚ) ≠ 0 := by norm_num
  rw [value, value, padded, zpow_sub₀ hten, zpow_natCast]
  push_cast
  field_simp

end RasterScript.Number.Decimal

namespace RasterScript.Number.Layout

open Decimal (Spelling AllDigits natOfDigits)

/-- Parts without a power of ten. -/
def plainly (whole fraction : List Char) : Spelling := ⟨whole, fraction, false, []⟩

theorem chars_plainly (plus : Bool) (whole fraction : List Char) :
    (plainly whole fraction).chars plus = whole ++ Decimal.fractionChars fraction := by
  rw [Spelling.chars, plainly]
  exact congrArg (whole ++ ·) (List.append_nil _)

theorem valid_plainly {whole fraction : List Char} (hwhole : AllDigits whole)
    (hfraction : AllDigits fraction)
    (hleading : whole = ['0'] ∨ ∃ d ds, whole = d :: ds ∧ d ≠ '0') :
    (plainly whole fraction).Valid :=
  ⟨hwhole, hfraction, by rintro c ⟨⟩, fun _ => rfl, hleading⟩

theorem ofSpelling_plainly (whole fraction : List Char) :
    Decimal.ofSpelling (plainly whole fraction) =
      ⟨natOfDigits (whole ++ fraction), -fraction.length⟩ := by
  rw [Decimal.ofSpelling, show (plainly whole fraction).scale = 0 from rfl, zero_sub]
  rfl

section Digits

variable {n : ℕ} (hn : 0 < n) (plus : Bool)
include hn

/-- A whole number, with zeros before the point and one after it. -/
theorem whole_spelled (point : Bool) (k : ℕ) :
    ∃ s : Spelling, Nat.toDigits 10 n ++ List.replicate k '0' ++ (if point then ['.', '0'] else []) =
        s.chars plus ∧ s.Valid ∧
      Decimal.ofSpelling s = Decimal.padded ⟨n, k⟩ (k + point.toNat) := by
  obtain ⟨d, ds, hdigits, hd⟩ := Decimal.toDigits_eq_cons hn
  have hwhole := (Decimal.allDigits_toDigits n).append (Decimal.allDigits_replicate k)
  have hleading : ∃ c cs, Nat.toDigits 10 n ++ List.replicate k '0' = c :: cs ∧ c ≠ '0' := by
    rw [hdigits]
    exact ⟨d, _, rfl, hd⟩
  refine ⟨plainly (Nat.toDigits 10 n ++ List.replicate k '0') (List.replicate point.toNat '0'),
    ?_, valid_plainly hwhole (Decimal.allDigits_replicate _) (.inr hleading), ?_⟩
  · rw [chars_plainly]
    cases point <;> rfl
  · rw [ofSpelling_plainly, Decimal.padded, List.append_assoc, Decimal.natOfDigits_append,
      Decimal.natOfDigits_toDigits, List.replicate_append_replicate, Decimal.natOfDigits_replicate,
      List.length_replicate, List.length_replicate, Nat.add_zero, Nat.mul_comm]
    congr 1
    show -(point.toNat : ℤ) = k - (k + point.toNat : ℕ)
    omega

/-- A point between the digits. -/
theorem split_spelled {k : ℕ} (hpos : 0 < k) (hshort : k < (Nat.toDigits 10 n).length) :
    ∃ s : Spelling, (Nat.toDigits 10 n).take ((Nat.toDigits 10 n).length - k) ++
        '.' :: (Nat.toDigits 10 n).drop ((Nat.toDigits 10 n).length - k) = s.chars plus ∧
      s.Valid ∧ Decimal.ofSpelling s = ⟨n, -k⟩ := by
  obtain ⟨d, ds, hdigits, hd⟩ := Decimal.toDigits_eq_cons hn
  have hall := Decimal.allDigits_toDigits n
  have hsplit := List.take_append_drop ((Nat.toDigits 10 n).length - k) (Nat.toDigits 10 n)
  refine ⟨plainly ((Nat.toDigits 10 n).take ((Nat.toDigits 10 n).length - k))
    ((Nat.toDigits 10 n).drop ((Nat.toDigits 10 n).length - k)), ?_, ?_, ?_⟩
  · rw [chars_plainly, Decimal.fractionChars, if_neg]
    rw [List.isEmpty_iff, List.drop_eq_nil_iff]
    omega
  · apply valid_plainly
    · exact fun c hc => hall c (List.mem_of_mem_take hc)
    · exact fun c hc => hall c (List.mem_of_mem_drop hc)
    · obtain ⟨j, hj⟩ : ∃ j, (Nat.toDigits 10 n).length - k = j + 1 :=
        ⟨(Nat.toDigits 10 n).length - k - 1, by omega⟩
      rw [hj, hdigits, List.take_succ_cons]
      exact .inr ⟨d, _, rfl, hd⟩
  · rw [ofSpelling_plainly, hsplit, Decimal.natOfDigits_toDigits, List.length_drop,
      show (Nat.toDigits 10 n).length - ((Nat.toDigits 10 n).length - k) = k by omega]

/-- A zero before the point, and zeros before the digits. -/
theorem small_spelled {k : ℕ} (hlong : (Nat.toDigits 10 n).length ≤ k) :
    ∃ s : Spelling, '0' :: '.' :: (List.replicate (k - (Nat.toDigits 10 n).length) '0' ++
        Nat.toDigits 10 n) = s.chars plus ∧
      s.Valid ∧ Decimal.ofSpelling s = ⟨n, -k⟩ := by
  obtain ⟨d, ds, hdigits, -⟩ := Decimal.toDigits_eq_cons hn
  have hzero : natOfDigits ['0'] = 0 := rfl
  refine ⟨plainly ['0'] (List.replicate (k - (Nat.toDigits 10 n).length) '0' ++
    Nat.toDigits 10 n), ?_, ?_, ?_⟩
  · rw [chars_plainly, Decimal.fractionChars, if_neg]
    · rfl
    · rw [List.isEmpty_iff, List.append_eq_nil_iff, hdigits]
      rintro ⟨-, ⟨⟩⟩
  · exact valid_plainly (Decimal.allDigits_replicate 1)
      ((Decimal.allDigits_replicate _).append (Decimal.allDigits_toDigits n)) (.inl rfl)
  · rw [ofSpelling_plainly, Decimal.natOfDigits_append, Decimal.natOfDigits_append,
      Decimal.natOfDigits_toDigits, Decimal.natOfDigits_replicate, List.length_append,
      List.length_replicate, Nat.sub_add_cancel hlong, hzero, Nat.mul_zero, Nat.mul_zero,
      Nat.zero_add, Nat.zero_add]

/-- Digits with the point moved are spelled without a power of ten. -/
theorem shifted_spelled (point : Bool) (e : ℤ) :
    ∃ (s : Spelling) (zeros : ℕ), shifted point (Nat.toDigits 10 n) e = s.chars plus ∧ s.Valid ∧
      Decimal.ofSpelling s = Decimal.padded ⟨n, e⟩ zeros ∧ zeros ≤ e.toNat + 1 ∧
      (point = true → e < zeros) := by
  by_cases he : 0 ≤ e
  · obtain ⟨k, rfl⟩ := Int.eq_ofNat_of_zero_le he
    obtain ⟨s, hs, hvalid, hpadded⟩ := whole_spelled hn plus point k
    rw [shifted, if_pos he, Int.toNat_natCast]
    refine ⟨s, k + point.toNat, hs, hvalid, hpadded, ?_, ?_⟩
    · have := point.toNat_le
      omega
    · rintro rfl
      simp
  · obtain ⟨k, rfl⟩ : ∃ k : ℕ, e = -k := ⟨(-e).toNat, by omega⟩
    obtain ⟨s, hs, hvalid, hsame⟩ : ∃ s : Spelling,
        shifted point (Nat.toDigits 10 n) (-k) = s.chars plus ∧ s.Valid ∧
          Decimal.ofSpelling s = ⟨n, -k⟩ := by
      rw [shifted, if_neg he, Int.neg_neg, Int.toNat_natCast]
      simp only []
      split
      · next hshort => exact split_spelled hn plus (by omega) hshort
      · next hlong => exact small_spelled hn plus (not_lt.mp hlong)
    exact ⟨s, 0, hs, hvalid, by rw [hsame, Decimal.padded_zero], by omega, fun _ => by omega⟩

/-- One digit before the point and a power of ten. -/
theorem scientific_spelled (power : ℤ) :
    ∃ s : Spelling, scientific plus (Nat.toDigits 10 n) power = s.chars plus ∧ s.Valid ∧
      Decimal.ofSpelling s = ⟨n, power + 1 - (Nat.toDigits 10 n).length⟩ := by
  obtain ⟨d, ds, hdigits, hd⟩ := Decimal.toDigits_eq_cons hn
  have hall := Decimal.allDigits_toDigits n
  have hvalue := Decimal.natOfDigits_toDigits n
  rw [hdigits] at hall hvalue ⊢
  refine ⟨⟨[d], ds, decide (power < 0), Nat.toDigits 10 power.natAbs⟩, ?_, ⟨?_, ?_, ?_, ?_, ?_⟩, ?_⟩
  · have hmantissa : scientific plus (d :: ds) power = d :: (Decimal.fractionChars ds ++
        'e' :: ((if power < 0 then ['-'] else if plus then ['+'] else []) ++
          Nat.toDigits 10 power.natAbs)) := by
      cases ds <;> rfl
    have hempty : ¬(Nat.toDigits 10 power.natAbs).isEmpty := by
      rw [List.isEmpty_iff]
      exact Decimal.toDigits_ne_nil _
    rw [hmantissa, Spelling.chars, Decimal.exponentChars, if_neg hempty]
    simp only [decide_eq_true_eq]
    rfl
  · exact fun c hc => hall c (List.mem_singleton.mp hc ▸ List.mem_cons_self)
  · exact fun c hc => hall c (List.mem_cons_of_mem _ hc)
  · exact Decimal.allDigits_toDigits _
  · exact fun h => absurd h (Decimal.toDigits_ne_nil _)
  · exact .inr ⟨d, [], rfl, hd⟩
  · have hscale : Binary.signed (decide (power < 0)) power.natAbs = power := by
      rw [Binary.signed]
      simp only [decide_eq_true_eq]
      split <;> omega
    rw [Decimal.ofSpelling, Spelling.scale, Decimal.natOfDigits_toDigits, hscale]
    show Decimal.mk (natOfDigits (d :: ds)) (power - ds.length) = _
    rw [hvalue, List.length_cons]
    congr 1
    omega

end Digits

/-- A decimal is spelled by its digits, with zeros where the point needs them: all of a whole
number if the layout asks for a point. -/
theorem decimal_spelled (layout : Layout) {d : Decimal} (hd : 0 < d.digits) :
    ∃ (s : Spelling) (zeros : ℕ), layout.decimal d = s.chars layout.plus ∧ s.Valid ∧
      Decimal.ofSpelling s = d.padded zeros ∧
      (zeros = 0 ∨ layout.positional (d.exponent + (Nat.toDigits 10 d.digits).length - 1) = true ∧
        zeros ≤ d.exponent.toNat + 1) ∧
      (layout.positional (d.exponent + (Nat.toDigits 10 d.digits).length - 1) = true →
        layout.point = true → d.exponent < zeros) := by
  rw [decimal]
  split
  · next hpositional =>
    obtain ⟨s, zeros, hs, hvalid, hpadded, hzeros, hpoint⟩ :=
      shifted_spelled hd layout.plus layout.point d.exponent
    exact ⟨s, zeros, hs, hvalid, hpadded, .inr ⟨hpositional, hzeros⟩, fun _ => hpoint⟩
  · next hpower =>
    obtain ⟨s, hs, hvalid, hsame⟩ := scientific_spelled hd layout.plus
      (d.exponent + (Nat.toDigits 10 d.digits).length - 1)
    refine ⟨s, 0, hs, hvalid, ?_, .inl rfl, fun h => absurd h hpower⟩
    rw [hsame, Decimal.padded_zero, sub_add_cancel, add_sub_cancel_right]

end RasterScript.Number.Layout
