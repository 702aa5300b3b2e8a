import Mathlib
import RasterScript.Proofs.Json.Numbers

/-! The texts of doubles in listings: digits with a point at most, behind a sign at most, and no two
doubles have the same one. -/
namespace RasterScript.Number

open Float.Model (UnpackedFloat)
open Float.Model.UnpackedFloat (Sign)
open Decimal (AllDigits)

/-! ### Doubles by their parts -/

private theorem beq_negative_inj {s t : Sign} (h : (s == .negative) = (t == .negative)) :
    s = t := by
  cases s <;> cases t <;> first | rfl | cases h

theorem Binary.ofUnpacked_injective : Function.Injective Binary.ofUnpacked := by
  rintro (s | _ | s | ⟨s, m, e, hm⟩) (t | _ | t | ⟨t, n, f, hn⟩) h <;>
    simp only [Binary.ofUnpacked, reduceCtorEq, Binary.infinite.injEq, Binary.finite.injEq] at h
  · rw [beq_negative_inj h]
  · rfl
  · rw [beq_negative_inj h.1]
  · omega
  · omega
  · obtain ⟨hs, rfl, rfl⟩ := h
    rw [beq_negative_inj hs]

theorem Binary.ofFloat_injective : Function.Injective Binary.ofFloat := by
  intro x y h
  rw [binary_eq_ofUnpacked, binary_eq_ofUnpacked] at h
  have hbits : x.toBits.toNat = y.toBits.toNat := by
    rw [toBits_eq_pack, toBits_eq_pack, Binary.ofUnpacked_injective h]
  exact Float.toBits_inj.mp (UInt64.toNat_inj.mp hbits)

theorem eq_of_rankAt_eq {m m' : ℕ} {q q' : ℤ} (h : Canonical m q) (hq : q ≤ 971)
    (h' : Canonical m' q') (hq' : q' ≤ 971) (heq : rankAt m q = rankAt m' q') :
    m = m' ∧ q = q' := by
  have hcompare := compare_rankAt h hq h' hq'
  rw [heq, compare_eq_iff_eq.mpr rfl, Ordering.then_eq_eq, compare_eq_iff_eq,
    compare_eq_iff_eq] at hcompare
  exact hcompare.symm

/-! ### Texts of magnitudes -/

namespace Layout

/-- The text of a finite double spells a number that rounds to it. -/
theorem magnitude_spelled (layout : Layout) {m : ℕ} {q : ℤ} (hcanonical : Canonical m q)
    (hq : q ≤ 971) :
    ∃ s : Decimal.Spelling, layout.magnitude m q = s.chars layout.plus ∧ s.Valid ∧
      nearRank (Decimal.ofSpelling s).value = rankAt m q := by
  obtain rfl | hm := m.eq_zero_or_pos
  · obtain rfl : q = -1074 := hcanonical.normal.resolve_left (by decide)
    refine ⟨_, magnitude_zero layout _, valid_plainly (Decimal.allDigits_replicate 1)
      (Decimal.allDigits_replicate _) (.inl rfl), ?_⟩
    have hzero :
        (Decimal.ofSpelling (plainly ['0'] (List.replicate layout.point.toNat '0'))).value = 0 := by
      rw [ofSpelling_plainly, Decimal.natOfDigits_append, Decimal.natOfDigits_replicate]
      exact (congrArg (· * _) Nat.cast_zero).trans (zero_mul _)
    exact (congrArg nearRank hzero).trans nearRank_zero
  · obtain ⟨s, zeros, hchars, hvalid, hpadded, -⟩ :=
      decimal_spelled layout (Decimal.shortest_pos layout.tie hm hcanonical hq)
    rw [magnitude, if_neg hm.ne']
    refine ⟨s, hchars, hvalid, ?_⟩
    rw [hpadded, Decimal.value_padded]
    exact nearRank_of_around hm hcanonical (Decimal.around_shortest layout.tie hm hcanonical hq)

/-- A sign and a magnitude tell finite doubles apart. -/
theorem eq_of_signed_magnitude (layout : Layout) {b b' : Bool} {m m' : ℕ} {q q' : ℤ}
    (hcanonical : Canonical m q) (hq : q ≤ 971) (hcanonical' : Canonical m' q') (hq' : q' ≤ 971)
    (h : (if b then ['-'] else []) ++ layout.magnitude m q =
      (if b' then ['-'] else []) ++ layout.magnitude m' q') : b = b' ∧ m = m' ∧ q = q' := by
  obtain ⟨s, hs, hvalid, hrank⟩ := layout.magnitude_spelled hcanonical hq
  obtain ⟨s', hs', hvalid', hrank'⟩ := layout.magnitude_spelled hcanonical' hq'
  rw [hs, hs'] at h
  have hliteral : Json.literal b layout.plus s = Json.literal b' layout.plus s' := h
  have hsign : b = b' := by
    rw [← Json.isNegative_literal hvalid b layout.plus, hliteral, Json.isNegative_literal hvalid']
  have hspelling : s = s' := by
    rw [← Json.spelling_literal hvalid b layout.plus, hliteral, Json.spelling_literal hvalid']
  rw [hspelling, hrank'] at hrank
  exact ⟨hsign, eq_of_rankAt_eq hcanonical hq hcanonical' hq' hrank.symm⟩

/-- The characters of digits with a point. -/
def isNumeral (c : Char) : Bool := c.isDigit || c = '.'

private theorem isNumeral_of_digits {cs : List Char} (h : AllDigits cs) :
    ∀ c ∈ cs, isNumeral c = true :=
  fun c hc => by rw [isNumeral, h c hc, Bool.true_or]

private theorem isNumeral_shifted {ds : List Char} (h : AllDigits ds) (e : ℤ) :
    ∀ c ∈ shifted false ds e, isNumeral c = true := by
  have hds := isNumeral_of_digits h
  have hzeros : ∀ n, ∀ c ∈ List.replicate n '0', isNumeral c = true := fun n =>
    isNumeral_of_digits (Decimal.allDigits_replicate n)
  intro c hc
  rw [shifted] at hc
  split at hc
  · simp only [Bool.false_eq_true, if_false, List.append_nil, List.mem_append] at hc
    exact hc.elim (hds c) (hzeros _ c)
  · simp only [] at hc
    split at hc
    · rcases List.mem_append.mp hc with hc | hc
      · exact hds c (List.mem_of_mem_take hc)
      · rcases List.mem_cons.mp hc with rfl | hc
        · rfl
        · exact hds c (List.mem_of_mem_drop hc)
    · simp only [List.mem_cons, List.mem_append] at hc
      rcases hc with rfl | rfl | hc | hc
      · rfl
      · rfl
      · exact hzeros _ c hc
      · exact hds c hc

/-- A digit stands first in a magnitude, and in a listing only digits and a point follow. -/
theorem plain_magnitude {m : ℕ} {q : ℤ} (hcanonical : Canonical m q) (hq : q ≤ 971) :
    (∃ d ds, plain.magnitude m q = d :: ds ∧ d.isDigit = true) ∧
      ∀ c ∈ plain.magnitude m q, isNumeral c = true := by
  obtain ⟨s, hs, hvalid, -⟩ := plain.magnitude_spelled hcanonical hq
  refine ⟨hs ▸ Json.chars_eq_cons hvalid plain.plus, ?_⟩
  rw [magnitude]
  split
  · exact isNumeral_of_digits (Decimal.allDigits_replicate 1)
  · exact isNumeral_shifted (Decimal.allDigits_toDigits _) _

end Layout

/-! ### Texts of doubles -/

private theorem toList_plain (x : Float) : (plain x).toList = Layout.plain.binary (.ofFloat x) :=
  String.toList_ofList

/-- What the text of a double looks like. -/
inductive PlainText : List Char → Prop where
  | nan : PlainText ['N', 'a', 'N']
  | infinite : PlainText ['i', 'n', 'f']
  | negative {cs} : (∀ c ∈ cs, Layout.isNumeral c = true) ∨ cs = ['i', 'n', 'f'] →
      PlainText ('-' :: cs)
  | digits {d cs} : d.isDigit = true → (∀ c ∈ cs, Layout.isNumeral c = true) → PlainText (d :: cs)

theorem plainText (x : Float) : PlainText (plain x).toList := by
  rw [toList_plain]
  cases hx : Binary.ofFloat x with
  | nan => exact .nan
  | infinite negative =>
    cases negative with
    | false => exact .infinite
    | true => exact .negative (.inr rfl)
  | finite negative m q =>
    obtain ⟨hcanonical, hq⟩ := canonical_of_binary hx
    obtain ⟨⟨d, ds, hfirst, hd⟩, hall⟩ := Layout.plain_magnitude hcanonical hq
    cases negative with
    | false =>
      show PlainText (Layout.plain.magnitude m q)
      rw [hfirst] at hall ⊢
      exact .digits hd (List.forall_mem_cons.mp hall).2
    | true => exact .negative (.inl hall)

/-- The letter that ends the text of a double, if one does. -/
def Binary.ending : Binary → Option Char
  | .nan => some 'N'
  | .infinite _ => some 'f'
  | .finite .. => none

private theorem filter_getLast?_plain (x : Float) :
    ((plain x).toList.getLast?.filter fun c => !Layout.isNumeral c) =
      (Binary.ofFloat x).ending := by
  rw [toList_plain]
  cases hx : Binary.ofFloat x with
  | nan => rfl
  | infinite negative => cases negative <;> rfl
  | finite negative m q =>
    obtain ⟨hcanonical, hq⟩ := canonical_of_binary hx
    obtain ⟨⟨d, ds, hfirst, -⟩, hall⟩ := Layout.plain_magnitude hcanonical hq
    rw [Layout.binary, List.getLast?_append_of_ne_nil _ (hfirst ▸ List.cons_ne_nil d ds),
      Binary.ending, Option.filter_eq_none_iff]
    intro c hc
    rw [hall c (List.mem_of_getLast? hc)]
    decide

/-- No two doubles have the same text. -/
theorem plain_injective : Function.Injective plain := by
  intro x y h
  have htext : Layout.plain.binary (.ofFloat x) = Layout.plain.binary (.ofFloat y) := by
    rw [← toList_plain, ← toList_plain, h]
  have hending : (Binary.ofFloat x).ending = (Binary.ofFloat y).ending := by
    rw [← filter_getLast?_plain, ← filter_getLast?_plain, h]
  apply Binary.ofFloat_injective
  have hcanonical := @canonical_of_binary x
  have hcanonical' := @canonical_of_binary y
  generalize Binary.ofFloat x = v at htext hending hcanonical ⊢
  generalize Binary.ofFloat y = w at htext hending hcanonical' ⊢
  rcases v with _ | b | ⟨b, m, q⟩ <;> rcases w with _ | b' | ⟨b', m', q'⟩ <;> cases hending
  · rfl
  · cases b <;> cases b' <;> first | rfl | cases htext
  · obtain ⟨hm, hq⟩ := hcanonical rfl
    obtain ⟨hm', hq'⟩ := hcanonical' rfl
    obtain ⟨rfl, rfl, rfl⟩ := Layout.eq_of_signed_magnitude Layout.plain hm hq hm' hq' htext
    rfl

end RasterScript.Number
