import Mathlib
import RasterScript.Proofs.Json.Reading
import RasterScript.Proofs.Number.Order
import RasterScript.Proofs.Number.Shortest

/-! Numbers in documents. Integers of 64 bits and finite doubles are written as numbers; integers
are read back exactly, and so are doubles whose text has few digits. -/
namespace RasterScript.Json

open Number
open Number.Decimal (Spelling AllDigits natOfDigits)

/-! ### Literals -/

section Literal

variable {s : Spelling} (h : s.Valid) (negative plus : Bool)

/-- The text of a number: a sign and the parts. -/
def literal (negative plus : Bool) (s : Spelling) : List Char :=
  (if negative then ['-'] else []) ++ s.chars plus

include h

theorem chars_eq_cons : ∃ d ds, s.chars plus = d :: ds ∧ d.isDigit = true := by
  obtain ⟨d, ds, hwhole⟩ : ∃ d ds, s.whole = d :: ds := by
    obtain hzero | ⟨d, ds, hwhole, -⟩ := h.leading
    · exact ⟨_, _, hzero⟩
    · exact ⟨_, _, hwhole⟩
  have hd := h.whole d (hwhole ▸ List.mem_cons_self)
  rw [Spelling.chars, hwhole]
  exact ⟨d, _, rfl, hd⟩

theorem isNegative_literal : isNegative (literal negative plus s) = negative := by
  cases negative with
  | true => rfl
  | false =>
    obtain ⟨d, ds, hchars, hd⟩ := chars_eq_cons h plus
    show isNegative (s.chars plus) = false
    rw [hchars, isNegative, List.head?_cons, decide_eq_false_iff_not, Option.some_inj]
    rintro rfl
    exact absurd hd (by decide)

private theorem unsigned_literal : unsigned (literal negative plus s) = s.chars plus := by
  rw [unsigned, isNegative_literal h]
  cases negative <;> rfl

theorem spelling_literal : spelling (literal negative plus s) = s := by
  rw [spelling, unsigned_literal h, Decimal.read_chars plus h]

private theorem isLiteral_literal : isLiteral (literal negative plus s) = true := by
  rw [isLiteral, unsigned_literal h, Decimal.read_chars plus h]
  show (isWholePart s.whole && true) = true
  rw [Bool.and_true]
  obtain hzero | ⟨d, ds, hwhole, hd⟩ := h.leading
  · rw [hzero]
    rfl
  · rw [hwhole, isWholePart]
    · exact decide_eq_true hd
    · rintro rfl
      exact absurd rfl hd

private theorem isNumberChar_literal : ∀ c ∈ literal negative plus s, isNumberChar c = true := by
  have hdigits {cs : List Char} (hcs : AllDigits cs) : ∀ c ∈ cs, isNumberChar c = true := by
    intro c hc
    rw [isNumberChar, hcs c hc, Bool.true_or]
  have hsign (b : Bool) (c : Char) (hc : isNumberChar c = true) {cs : List Char}
      (hcs : ∀ c ∈ cs, isNumberChar c = true) :
      ∀ d ∈ (if b then [c] else cs), isNumberChar d = true := by
    cases b with
    | true => exact List.forall_mem_singleton.mpr hc
    | false => exact hcs
  have hnone : ∀ c ∈ ([] : List Char), isNumberChar c = true := List.forall_mem_nil _
  have hfraction : ∀ c ∈ Decimal.fractionChars s.fraction, isNumberChar c = true := by
    rw [Decimal.fractionChars]
    split
    · exact hnone
    · exact List.forall_mem_cons.mpr ⟨by decide, hdigits h.fraction⟩
  have hexponent : ∀ c ∈ Decimal.exponentChars plus s.exponentNegative s.exponent,
      isNumberChar c = true := by
    rw [Decimal.exponentChars]
    split
    · exact hnone
    · exact List.forall_mem_cons.mpr ⟨by decide, List.forall_mem_append.mpr
        ⟨hsign _ '-' (by decide) (hsign _ '+' (by decide) hnone), hdigits h.exponent⟩⟩
  rw [literal, Spelling.chars]
  simp only [List.forall_mem_append]
  exact ⟨hsign negative '-' (by decide) hnone, hdigits h.whole, hfraction, hexponent⟩

private theorem wellFormed_literal : WellFormed (number (literal negative plus s)) :=
  .number (isLiteral_literal h negative plus) (isNumberChar_literal h negative plus)

end Literal

/-! ### Integers -/

private theorem ofInt_eq (n : ℤ) :
    ofInt n = number (literal (decide (n < 0)) false (Layout.plainly (Nat.toDigits 10 n.natAbs) []))
      := by
  rw [ofInt, literal, Layout.chars_plainly]
  show _ = number (_ ++ (Nat.toDigits 10 n.natAbs ++ []))
  simp only [decide_eq_true_eq, List.append_nil]

private theorem valid_toDigits (n : ℕ) : (Layout.plainly (Nat.toDigits 10 n) []).Valid := by
  refine Layout.valid_plainly (Decimal.allDigits_toDigits n) (Decimal.allDigits_replicate 0) ?_
  obtain rfl | hn := n.eq_zero_or_pos
  · exact .inl rfl
  · exact .inr (Decimal.toDigits_eq_cons hn)

theorem wellFormed_ofInt (n : ℤ) : WellFormed (ofInt n) := by
  rw [ofInt_eq]
  exact wellFormed_literal (valid_toDigits _) _ _

/-- Integers of 64 bits are read back, with a sign or without. -/
theorem int?_ofInt {n : ℤ} (hlow : -2 ^ 63 ≤ n) (hhigh : n < 2 ^ 64) : (ofInt n).int? = some n := by
  have hvalid := valid_toDigits n.natAbs
  rw [ofInt_eq, int?]
  simp only [spelling_literal hvalid, isNegative_literal hvalid]
  simp only [Layout.plainly, Decimal.natOfDigits_toDigits]
  show (if decide (n < 0) = true then
      if (decide (0 < n.natAbs) && decide (n.natAbs ≤ 2 ^ 63)) = true then some (-(n.natAbs : ℤ))
      else none
    else if n.natAbs < 2 ^ 64 then some (n.natAbs : ℤ) else none) = some n
  simp only [decide_eq_true_eq, Bool.and_eq_true]
  split
  · rw [if_pos (by omega)]
    congr 1
    omega
  · rw [if_pos (by omega)]
    congr 1
    omega

/-! ### Doubles -/

private theorem ofFloat_eq {x : Float} {negative : Bool} {m : ℕ} {q : ℤ}
    (hx : Binary.ofFloat x = .finite negative m q) {s : Spelling}
    (hs : Layout.file.magnitude m q = s.chars Layout.file.plus) :
    ofFloat x = number (literal negative true s) := by
  rw [ofFloat, hx]
  simp only []
  rw [Layout.binary, hs]
  rfl

/-- A finite double is written as a number. -/
theorem ofFloat_of_finite {x : Float} (h : x.isFinite = true) :
    ∃ literal, ofFloat x = number literal ∧ isLiteral literal = true ∧
      ∀ c ∈ literal, isNumberChar c = true := by
  obtain ⟨negative, m, q, hx⟩ := isFinite_iff_binary.mp h
  obtain ⟨hcanonical, hq⟩ := canonical_of_binary hx
  obtain ⟨s, hs, hvalid, -⟩ := Layout.file_spelled hcanonical hq
  exact ⟨_, ofFloat_eq hx hs, isLiteral_literal hvalid negative true,
    isNumberChar_literal hvalid negative true⟩

/-- There is no text for the others. -/
theorem ofFloat_of_not_finite {x : Float} (h : x.isFinite ≠ true) : ofFloat x = null := by
  rw [ne_eq, isFinite_iff_binary] at h
  rw [ofFloat]
  split
  · next negative m q hx => exact absurd ⟨negative, m, q, hx⟩ h
  · rfl

theorem wellFormed_ofFloat (x : Float) : WellFormed (ofFloat x) := by
  by_cases h : x.isFinite = true
  · obtain ⟨literal, hnumber, hliteral, hchars⟩ := ofFloat_of_finite h
    rw [hnumber]
    exact .number hliteral hchars
  · rw [ofFloat_of_not_finite h]
    exact .null

/-- A digit more. -/
def pushDigit (n : ℕ) (c : Char) : ℕ := 10 * n + (c.toNat - 48)

private theorem le_foldl_pushDigit (cs : List Char) (n : ℕ) : n ≤ cs.foldl pushDigit n := by
  induction cs generalizing n with
  | nil => exact le_rfl
  | cons c cs ih =>
    refine le_trans ?_ (ih (pushDigit n c))
    rw [pushDigit]
    omega

private theorem foldl_pushWhole (cs : List Char) {n : ℕ} (e : ℤ)
    (h : cs.foldl pushDigit n < 2 ^ 64) :
    cs.foldl Significand.pushWhole ⟨n, e, false⟩ = ⟨cs.foldl pushDigit n, e, false⟩ := by
  induction cs generalizing n with
  | nil => rfl
  | cons c cs ih =>
    have hlt : pushDigit n c < 2 ^ 64 := (le_foldl_pushDigit cs _).trans_lt h
    have hpush : Significand.pushWhole ⟨n, e, false⟩ c = ⟨pushDigit n c, e, false⟩ := if_pos hlt
    rw [List.foldl_cons, hpush, ih h, List.foldl_cons]

private theorem foldl_pushFraction (cs : List Char) {n : ℕ} (e : ℤ)
    (h : cs.foldl pushDigit n < 2 ^ 64) : cs.foldl Significand.pushFraction ⟨n, e, false⟩ =
      ⟨cs.foldl pushDigit n, e - cs.length, false⟩ := by
  induction cs generalizing n e with
  | nil => rw [List.foldl_nil, List.foldl_nil, List.length_nil, Nat.cast_zero, sub_zero]
  | cons c cs ih =>
    have hlt : pushDigit n c < 2 ^ 64 := (le_foldl_pushDigit cs _).trans_lt h
    have hpush : Significand.pushFraction ⟨n, e, false⟩ c = ⟨pushDigit n c, e - 1, false⟩ :=
      if_pos hlt
    rw [List.foldl_cons, hpush, ih _ h, List.foldl_cons, List.length_cons]
    congr 1
    push_cast
    ring

/-- Digits that fit 64 bits are all kept. -/
theorem significand_eq {s : Spelling} (h : (Decimal.ofSpelling s).digits < 2 ^ 64) :
    Significand.ofSpelling s = ⟨(Decimal.ofSpelling s).digits, -s.fraction.length, false⟩ := by
  have hdigits : (Decimal.ofSpelling s).digits =
      s.fraction.foldl pushDigit (s.whole.foldl pushDigit 0) := List.foldl_append ..
  rw [hdigits] at h ⊢
  have hwhole := foldl_pushWhole s.whole 0 ((le_foldl_pushDigit s.fraction _).trans_lt h)
  rw [Significand.ofSpelling]
  simp only [hwhole]
  rw [foldl_pushFraction s.fraction 0 h, zero_sub]

private theorem pushWhole_lt {s : Significand} (h : s.digits < 2 ^ 64) (c : Char) :
    (s.pushWhole c).digits < 2 ^ 64 := by
  rw [Significand.pushWhole]
  split
  · exact h
  · split
    · next hlt => exact hlt
    · exact h

private theorem pushFraction_lt {s : Significand} (h : s.digits < 2 ^ 64) (c : Char) :
    (s.pushFraction c).digits < 2 ^ 64 := by
  rw [Significand.pushFraction]
  split
  · exact h
  · split
    · next hlt => exact hlt
    · exact h

private theorem significand_lt (s : Spelling) : (Significand.ofSpelling s).digits < 2 ^ 64 := by
  have hfold {push : Significand → Char → Significand}
      (hpush : ∀ {t : Significand}, t.digits < 2 ^ 64 → ∀ c, (push t c).digits < 2 ^ 64)
      (cs : List Char) {t : Significand} (ht : t.digits < 2 ^ 64) :
      (cs.foldl push t).digits < 2 ^ 64 := by
    induction cs generalizing t with
    | nil => exact ht
    | cons c cs ih => exact ih (hpush ht c)
  exact hfold pushFraction_lt s.fraction
    (hfold pushWhole_lt s.whole (show (⟨0, 0, false⟩ : Significand).digits < 2 ^ 64 by decide))

/-! ### Powers of ten -/

private theorem value_powerOfTen {k : ℕ} (hk : k ≤ 22) : value? (powerOfTen k) = some (10 ^ k) := by
  have hall : ∀ k < 23, value? (powerOfTen k) = some (10 ^ k) := by decide +kernel
  exact hall k (by omega)

private theorem nearest_powerOfTen {k : ℕ} (hk : k ≤ 308) : Nearest (powerOfTen k) (10 ^ k) := by
  by_cases hsmall : k ≤ 22
  · exact nearest_of_value (value_powerOfTen hsmall)
  · have hwidth : Decimal.width 1 = 1 := by decide
    have hround := nearest_ofScientific Nat.one_pos (k := k) (by omega) (fun h => hsmall h.2)
    rw [Nat.cast_one, one_mul] at hround
    rw [powerOfTen, Decimal.toFloat, if_neg Nat.one_ne_zero]
    simp only [hwidth]
    rwa [if_neg (by omega), if_neg (by omega), decide_eq_false (by omega), Int.natAbs_natCast]

/-- The powers of ten are doubles, from one to the largest. -/
theorem powerOfTen_bounds {k : ℕ} (hk : k ≤ 308) :
    ∃ b : ℚ, value? (powerOfTen k) = some b ∧ 1 ≤ b := by
  have hone : value? 1 = some 1 := by decide +kernel
  have hlow : 1 ≤ powerOfTen k :=
    (nearest_of_value hone).le (nearest_powerOfTen hk) (one_le_pow₀ (by norm_num))
  have hhigh : powerOfTen k ≤ powerOfTen 308 :=
    (nearest_powerOfTen hk).le (nearest_powerOfTen le_rfl) (pow_le_pow_right₀ (by norm_num) hk)
  obtain ⟨b, hb⟩ := Option.isSome_iff_exists.mp
    (isSome_value?_between hlow hhigh (by rw [hone]; rfl) (by decide +kernel))
  exact ⟨b, hb, (value_le_iff hone hb).mp hlow⟩

/-! ### What is read -/

private theorem isFinite_scale {steps : ℕ} {x y : Float} {e : ℤ} (hx : x.isFinite = true)
    (h : scale steps x e = some y) : y.isFinite = true := by
  induction steps generalizing x e with
  | zero =>
    obtain rfl := Option.some.inj h
    exact hx
  | succ steps ih =>
    rw [scale] at h
    split at h
    · next he =>
      obtain ⟨b, hvalue, hb⟩ := powerOfTen_bounds he
      split at h
      · rw [Option.ite_none_left_eq_some] at h
        obtain ⟨hinf, hy⟩ := h
        obtain rfl := Option.some.inj hy
        obtain ⟨a, ha⟩ := Option.isSome_iff_exists.mp (isFinite_iff.mp hx)
        exact isFinite_iff_not.mpr
          ⟨(nearest_mul ha hvalue).number, Bool.eq_false_of_not_eq_true hinf⟩
      · obtain rfl := Option.some.inj h
        exact isFinite_div hx hvalue hb
    · split at h
      · obtain rfl := Option.some.inj h
        exact hx
      · split at h
        · cases h
        · obtain ⟨b, hvalue, hb⟩ := powerOfTen_bounds (le_refl 308)
          exact ih (isFinite_div hx hvalue hb) h

/-- What is read is finite. -/
theorem isFinite_of_float? {j : Json} {x : Float} (h : j.float? = some x) : x.isFinite = true := by
  cases j with
  | number literal =>
    obtain ⟨y, hy, hx⟩ := Option.bind_eq_some_iff.mp h
    have hfinite := isFinite_scale (isFinite_ofNat (significand_lt _)) hy
    obtain rfl := Option.some.inj hx
    split
    · exact isFinite_neg hfinite
    · exact hfinite
  | null => cases h
  | bool b => cases h
  | string raw => cases h
  | array items => cases h
  | object members => cases h

private theorem float?_literal {s : Spelling} (h : s.Valid) (negative plus : Bool)
    (hdigits : (Decimal.ofSpelling s).digits < 2 ^ 64) :
    (number (literal negative plus s)).float? =
      (scale 4 (Float.ofNat (Decimal.ofSpelling s).digits) (Decimal.ofSpelling s).exponent).map
        fun y => if negative then -y else y := by
  have hexponent : -(s.fraction.length : ℤ) + s.scale = (Decimal.ofSpelling s).exponent := by
    rw [Decimal.ofSpelling]
    ring
  rw [float?]
  simp only [spelling_literal h, isNegative_literal h, significand_eq hdigits, hexponent]
  cases scale 4 (Float.ofNat (Decimal.ofSpelling s).digits) (Decimal.ofSpelling s).exponent <;> rfl

/-- A move to the right that stays finite is one product. -/
theorem scale_right {x : Float} {e : ℤ} (steps : ℕ) (he : 0 ≤ e) (hplaces : e.natAbs ≤ 308)
    (h : (x * powerOfTen e.natAbs).isFinite = true) :
    scale (steps + 1) x e = some (x * powerOfTen e.natAbs) := by
  rw [scale, if_pos hplaces, if_pos he]
  refine if_neg ?_
  rw [(isFinite_iff_not.mp h).2]
  exact Bool.false_ne_true

/-- Few digits are moved by few places in one step that rounds. -/
theorem scale_of_few {n : ℕ} {e : ℤ} (hn : n < 2 ^ 53) (he : e.natAbs ≤ 22)
    (hfinite : nearRank (n * 10 ^ e) < infinityRank) (steps : ℕ) :
    ∃ y, scale (steps + 1) (Float.ofNat n) e = some y ∧ Nearest y (n * 10 ^ e) := by
  have hvalue : value? (Float.ofNat n) = some (n : ℚ) := exact_of_natAbs_lt (n := n) hn
  have hpower := value_powerOfTen he
  by_cases hpos : 0 ≤ e
  · have hmul := nearest_mul hvalue hpower
    have hexact : (10 : ℚ) ^ e.natAbs = 10 ^ e := by
      rw [← zpow_natCast, Int.natAbs_of_nonneg hpos]
    rw [hexact] at hmul
    refine ⟨_, scale_right steps hpos (by omega) ?_, hmul⟩
    rw [isFinite_iff, isSome_value?_iff hmul.number, hmul.rank_eq, nearestRank,
      if_neg (not_lt.mpr (by positivity))]
    omega
  · have hdiv := nearest_div hvalue hpower (by positivity)
    have hexact : (n : ℚ) / 10 ^ e.natAbs = n * 10 ^ e := by
      rw [div_eq_mul_inv, ← zpow_natCast, ← zpow_neg]
      congr 2
      omega
    rw [hexact] at hdiv
    rw [scale, if_pos (by omega), if_neg hpos]
    exact ⟨_, rfl, hdiv⟩

/-- A move to the left always ends. -/
theorem isSome_scale {e : ℤ} (he : e < 0) (steps : ℕ) (x : Float) :
    (scale steps x e).isSome = true := by
  induction steps generalizing x e with
  | zero => rfl
  | succ steps ih =>
    rw [scale]
    split
    · rw [if_neg (by omega)]
      rfl
    · split
      · rfl
      · rw [if_neg (by omega)]
        exact ih (by omega) _

/-- Products of smaller numbers are finite too. -/
theorem isFinite_ofNat_mul {n n' k k' : ℕ} (hn : n ≤ n') (hn' : n' < 2 ^ 64) (hk : k ≤ k')
    (hk' : k' ≤ 308) (h : (Float.ofNat n' * powerOfTen k').isFinite = true) :
    (Float.ofNat n * powerOfTen k).isFinite = true := by
  obtain ⟨u, hu⟩ := Option.isSome_iff_exists.mp (isFinite_iff.mp (isFinite_ofNat (hn.trans_lt hn')))
  obtain ⟨v, hv⟩ := Option.isSome_iff_exists.mp (isFinite_iff.mp (isFinite_ofNat hn'))
  obtain ⟨b, hb, hone⟩ := powerOfTen_bounds (hk.trans hk')
  obtain ⟨c, hc, -⟩ := powerOfTen_bounds hk'
  have hzero : value? 0 = some 0 := by decide +kernel
  have hpos : 0 ≤ u := (value_le_iff hzero hu).mp
    ((nearest_of_value hzero).le (nearest_ofNat n) (Nat.cast_nonneg n))
  have huv : u ≤ v := (value_le_iff hu hv).mp
    ((nearest_ofNat n).le (nearest_ofNat n') (by exact_mod_cast hn))
  have hbc : b ≤ c := (value_le_iff hb hc).mp ((nearest_powerOfTen (hk.trans hk')).le
    (nearest_powerOfTen hk') (pow_le_pow_right₀ (by norm_num) hk))
  rw [isFinite_iff] at h ⊢
  refine isSome_value?_between ((nearest_of_value hzero).le (nearest_mul hu hb) ?_)
    ((nearest_mul hu hb).le (nearest_mul hv hc) ?_) (by rw [hzero]; rfl) h
  · positivity
  · exact mul_le_mul huv hbc (by linarith) (by linarith)

/-- The half between the two largest doubles. -/
def lastHalf : ℕ := (2 ^ 54 - 3) * 2 ^ 970

/-- Only the numbers around the largest double are larger. -/
theorem around_le {m : ℕ} {q : ℤ} {v : ℚ} (hcanonical : Canonical m q) (hq : q ≤ 971)
    (hmax : ¬(m = 2 ^ 53 - 1 ∧ q = 971)) (h : Around m q v) : v ≤ lastHalf := by
  have hlt := hcanonical.lt
  have hhalf : (lastHalf : ℚ) = (2 ^ 54 - 3) * 2 ^ (970 : ℤ) := by
    rw [lastHalf, Nat.cast_mul, Nat.cast_sub (by decide), Nat.cast_pow, Nat.cast_pow]
    rfl
  rw [hhalf]
  refine h.high.trans ?_
  obtain rfl | hless := hq.eq_or_lt
  · have hm : ((m + 2 : ℕ) : ℚ) ≤ (2 ^ 53 : ℕ) := Nat.cast_le.mpr (by omega)
    push_cast at hm
    rw [show (971 : ℤ) = 1 + 970 from rfl, zpow_one_add₀ two_ne_zero, ← mul_assoc]
    refine mul_le_mul_of_nonneg_right ?_ (by positivity)
    linarith
  · have hm : (m : ℚ) ≤ (2 ^ 53 : ℕ) := Nat.cast_le.mpr hlt.le
    have hle : (2 : ℚ) ^ q ≤ 2 ^ (970 : ℤ) := zpow_le_zpow_right₀ one_le_two (by omega)
    push_cast at hm
    refine mul_le_mul ?_ hle (by positivity) (by norm_num)
    linarith

/-- The decimal found for a double is small enough to be moved to the right. Only the largest
double has a decimal so close to the end that it takes a look at its digits. -/
theorem isFinite_shortest {m : ℕ} {q : ℤ} (hm : 0 < m) (hcanonical : Canonical m q) (hq : q ≤ 971)
    (he : 0 ≤ (Decimal.shortest .toEven m q).exponent) :
    (Decimal.shortest .toEven m q).exponent.natAbs ≤ 308 ∧
    (Float.ofNat (Decimal.shortest .toEven m q).digits *
      powerOfTen (Decimal.shortest .toEven m q).exponent.natAbs).isFinite = true := by
  by_cases hmax : m = 2 ^ 53 - 1 ∧ q = 971
  · obtain ⟨rfl, rfl⟩ := hmax
    decide +kernel
  · have hpos := Decimal.shortest_pos .toEven hm hcanonical hq
    have hlt := Decimal.shortest_lt .toEven hm hcanonical hq
    have hhigh := around_le hcanonical hq hmax (Decimal.around_shortest .toEven hm hcanonical hq)
    generalize Decimal.shortest .toEven m q = d at he hpos hlt hhigh ⊢
    obtain ⟨n, e⟩ := d
    obtain ⟨k, rfl⟩ := Int.eq_ofNat_of_zero_le he
    simp only [Int.natAbs_natCast] at hpos hlt ⊢
    have hbound : n * 10 ^ k ≤ lastHalf := by
      rw [Decimal.value, zpow_natCast] at hhigh
      exact_mod_cast hhigh
    have hten : 10 ^ k ≤ lastHalf := (Nat.le_mul_of_pos_left _ hpos).trans hbound
    have hend : Nat.log 10 lastHalf ≤ 308 := by decide +kernel
    have hk : k ≤ 308 := (Nat.le_log_of_pow_le (by decide) hten).trans hend
    refine ⟨hk, ?_⟩
    by_cases hsmall : k ≤ 290
    · exact isFinite_ofNat_mul hlt.le (by decide) hsmall (by decide) (by decide +kernel)
    · have hall : ∀ i < 18, (Float.ofNat (min (lastHalf / 10 ^ (i + 291)) (2 ^ 59)) *
          powerOfTen (i + 291)).isFinite = true := by
        decide +kernel
      have hlast := hall (k - 291) (by omega)
      rw [show k - 291 + 291 = k by omega] at hlast
      refine isFinite_ofNat_mul (le_min ?_ hlt.le) ?_ le_rfl (by omega) hlast
      · exact (Nat.le_div_iff_mul_le (by positivity)).mpr hbound
      · exact (min_le_right ..).trans_lt (by decide)

/-- The text of a finite double is read as a double. -/
theorem isSome_float? {x : Float} (h : x.isFinite = true) : (ofFloat x).float?.isSome = true := by
  obtain ⟨negative, m, q, hx⟩ := isFinite_iff_binary.mp h
  obtain ⟨hcanonical, hq⟩ := canonical_of_binary hx
  obtain ⟨s, hs, hvalid, -, hdigits, hexponent⟩ := Layout.file_spelled hcanonical hq
  rw [ofFloat_eq hx hs, float?_literal hvalid negative true hdigits, Option.isSome_map]
  by_cases he : 0 ≤ (Decimal.ofSpelling s).exponent
  · obtain ⟨hm, hsame⟩ := hexponent he
    rw [hsame] at he ⊢
    obtain ⟨hplaces, hfinite⟩ := isFinite_shortest hm hcanonical hq he
    rw [scale_right 3 he hplaces hfinite]
    rfl
  · exact isSome_scale (not_le.mp he) 4 _

/-- Numbers of few digits: fewer than `2 ^ 53` without their point, which moves by at most 22
places. -/
def isBrief : Json → Bool
  | number literal =>
    let d := Decimal.ofSpelling (spelling literal)
    d.digits < 2 ^ 53 && d.exponent.natAbs ≤ 22
  | _ => false

/-- A double whose text is brief is read back from it. -/
theorem float?_of_isBrief {x : Float} (h : (ofFloat x).isBrief = true) :
    (ofFloat x).float? = some x := by
  have hnumber : x.isFinite = true := by
    by_contra hnot
    rw [ofFloat_of_not_finite hnot] at h
    cases h
  obtain ⟨negative, m, q, hx⟩ := isFinite_iff_binary.mp hnumber
  obtain ⟨hcanonical, hq⟩ := canonical_of_binary hx
  obtain ⟨s, hs, hvalid, hrank, hdigits, -⟩ := Layout.file_spelled hcanonical hq
  rw [ofFloat_eq hx hs, isBrief] at h
  simp only [spelling_literal hvalid, Bool.and_eq_true, decide_eq_true_eq] at h
  have hfinite := (rankAt_eq hcanonical hq).2
  rw [← hrank] at hfinite
  obtain ⟨y, hy, hnear⟩ := scale_of_few h.1 h.2 hfinite 3
  obtain rfl | hm := m.eq_zero_or_pos
  · obtain rfl | rfl := eq_zero_of_binary hx <;> decide +kernel
  · have hpos : 0 ≤ (Decimal.ofSpelling s).value := by
      rw [Decimal.value]
      positivity
    rw [ofFloat_eq hx hs, float?_literal hvalid negative true hdigits, hy, Option.map_some,
      eq_of_nearest hx hm hpos hrank hnear]

end RasterScript.Json
