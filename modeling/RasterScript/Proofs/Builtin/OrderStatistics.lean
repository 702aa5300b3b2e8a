import Mathlib
import RasterScript.Builtin.Statistic
import RasterScript.Proofs.Number.Order

/-! Order statistics depend on the values of a sample and on how often each occurs, not on the order
in which they are given or on NaN values among them. The mode is found by a scan over the runs of
equal values; the invariant of the scan is that its best value leads among the values before it. -/
namespace RasterScript

namespace Statistic

/-! ### The scan for the mode -/

section Scan

variable {α : Type} [LinearOrder α] {v best : α} {n count : ℕ}

/-- No value is more frequent than `best`, which occurs `count` times and is the smallest of the
most frequent ones. -/
structure Leading (xs : List α) (best : α) (count : ℕ) : Prop where
  count_eq : xs.count best = count
  most : ∀ x, xs.count x ≤ count
  least : ∀ x ∈ xs, xs.count x = count → best ≤ x

theorem Leading.nil (best : α) : Leading [] best 0 :=
  ⟨rfl, fun _ => le_rfl, fun _ hx => absurd hx List.not_mem_nil⟩

private theorem count_append_run {xs : List α} (x : α) :
    (xs ++ List.replicate n v).count x = xs.count x + if v = x then n else 0 := by
  rw [List.count_append, List.count_replicate]
  simp

/-- A longer run of a larger value takes the lead. -/
theorem Leading.overtaken {xs : List α} (h : Leading xs best count) (hv : v ∉ xs)
    (hn : count < n) : Leading (xs ++ List.replicate n v) v n := by
  have hnone : xs.count v = 0 := List.count_eq_zero.mpr hv
  refine ⟨?_, fun x => ?_, fun x _ hx => ?_⟩
  · rw [count_append_run, hnone, if_pos rfl, Nat.zero_add]
  · rw [count_append_run]
    have hmost := h.most x
    split
    · next hvx =>
      subst hvx
      omega
    · omega
  · rw [count_append_run] at hx
    have hmost := h.most x
    split at hx
    · next hvx => exact hvx.le
    · omega

/-- A run of a larger value that is not longer does not. -/
theorem Leading.kept {xs : List α} (h : Leading xs best count) (hv : ∀ x ∈ xs, x < v)
    (hpos : 0 < n) (hn : n ≤ count) : Leading (xs ++ List.replicate n v) best count := by
  have hmem : best ∈ xs := List.count_pos_iff.mp (by rw [h.count_eq]; omega)
  have hbest : best < v := hv best hmem
  have hnone : xs.count v = 0 := List.count_eq_zero.mpr fun hmem => lt_irrefl v (hv v hmem)
  refine ⟨?_, fun x => ?_, fun x hx hcount => ?_⟩
  · rw [count_append_run, h.count_eq, if_neg hbest.ne', Nat.add_zero]
  · rw [count_append_run]
    have hmost := h.most x
    split
    · next hvx =>
      subst hvx
      omega
    · omega
  · rcases List.mem_append.mp hx with hx | hx
    · rw [count_append_run, if_neg (hv x hx).ne', Nat.add_zero] at hcount
      exact h.least x hx hcount
    · rw [List.eq_of_mem_replicate hx]
      exact hbest.le

/-- Ascending values start with a run of the first, and larger ones follow. -/
theorem exists_run {tail : List α} (h : (v :: tail).Pairwise (· ≤ ·)) :
    ∃ n rest, v :: tail = List.replicate (n + 1) v ++ rest ∧ ∀ x ∈ rest, v < x := by
  induction tail with
  | nil => exact ⟨0, [], rfl, fun _ hx => absurd hx List.not_mem_nil⟩
  | cons w tail ih =>
    obtain ⟨hv, hw⟩ := List.pairwise_cons.mp h
    obtain rfl | hne := eq_or_ne v w
    · obtain ⟨n, rest, heq, hrest⟩ := ih hw
      exact ⟨n + 1, rest, by rw [heq]; rfl, hrest⟩
    · have hlt : v < w := lt_of_le_of_ne (hv w List.mem_cons_self) hne
      refine ⟨0, w :: tail, rfl, List.forall_mem_cons.mpr ⟨hlt, fun x hx => ?_⟩⟩
      exact hlt.trans_le ((List.pairwise_cons.mp hw).1 x hx)

/-- The inner loop goes on to the end of the run. -/
theorem runEnd?_eq {vs : Array α} {i e : ℕ} (hie : i < e) (hsize : e ≤ vs.size)
    (hrun : ∀ k, i ≤ k → k < e → vs[k]? = some v) (hend : vs[e]? ≠ some v) {j : ℕ} (hij : i ≤ j)
    (hje : j ≤ e) : runEnd? vs i j = some e := by
  induction hd : e - j generalizing j with
  | zero =>
    obtain rfl : j = e := by omega
    rw [runEnd?]
    split
    · next hlt =>
      have hother : vs[j] ≠ v := fun heq => hend (by rw [Array.getElem?_eq_getElem hlt, heq])
      simp [hrun i le_rfl hie, Array.getElem?_eq_getElem hlt, hother]
    · rfl
  | succ d ih =>
    have hlt : j < e := by omega
    rw [runEnd?, if_pos (by omega), hrun i le_rfl hie, hrun j hij hlt]
    simpa using ih (by omega) (by omega) (by omega)

private theorem runEnd?_run (pre rest : List α) (hrest : ∀ x ∈ rest, v < x) (hn : 0 < n) :
    runEnd? (pre ++ (List.replicate n v ++ rest)).toArray pre.length pre.length =
      some (pre.length + n) := by
  refine runEnd?_eq (v := v) (by omega) (by simp) ?_ ?_ le_rfl (by omega)
  · intro k hk hlt
    rw [List.getElem?_toArray, List.getElem?_append_right hk,
      List.getElem?_append_left (by simp; omega), List.getElem?_replicate, if_pos (by omega)]
  · rw [List.getElem?_toArray, List.getElem?_append_right (by omega), Nat.add_sub_cancel_left,
      List.getElem?_append_right (by simp), List.length_replicate, Nat.sub_self]
    intro heq
    exact lt_irrefl v (hrest v (List.mem_of_getElem? heq))

/-- One round of the outer loop passes over one run. -/
theorem longestRun?_run (pre rest : List α) (hrest : ∀ x ∈ rest, v < x) (hn : 0 < n) :
    longestRun? (pre ++ (List.replicate n v ++ rest)).toArray pre.length best count =
      if count < n then
        longestRun? (pre ++ (List.replicate n v ++ rest)).toArray (pre.length + n) v n
      else
        longestRun? (pre ++ (List.replicate n v ++ rest)).toArray (pre.length + n) best count := by
  have hfirst : (pre ++ (List.replicate n v ++ rest)).toArray[pre.length]? = some v := by
    rw [List.getElem?_toArray, List.getElem?_append_right le_rfl, Nat.sub_self,
      List.getElem?_append_left (by simpa using hn), List.getElem?_replicate, if_pos hn]
  have hround : pre.length < pre.length + n := by omega
  rw [longestRun?, if_pos (by simp; omega), hfirst, runEnd?_run pre rest hrest hn]
  simp only [if_pos hround, Nat.add_sub_cancel_left]

/-- The outer loop, entered where `best` leads among the smaller values before: it comes to its end
with a value that leads among all. -/
theorem longestRun?_leading (pre rest : List α) (hsorted : rest.Pairwise (· ≤ ·))
    (hsplit : ∀ x ∈ pre, ∀ y ∈ rest, x < y) (h : Leading pre best count) :
    ∃ m c, longestRun? (pre ++ rest).toArray pre.length best count = some m ∧
      Leading (pre ++ rest) m c := by
  induction hlength : rest.length using Nat.strong_induction_on
    generalizing pre rest best count with
  | _ length ih =>
    cases rest with
    | nil =>
      refine ⟨best, count, ?_, by rwa [List.append_nil]⟩
      rw [longestRun?, if_neg (by simp)]
    | cons v tail =>
      have hv : ∀ x ∈ pre, x < v := fun x hx => hsplit x hx v List.mem_cons_self
      obtain ⟨n, later, heq, hlater⟩ := exists_run hsorted
      rw [heq] at hsorted hlength ⊢
      rw [longestRun?_run pre later hlater (Nat.succ_pos n)]
      -- The run joins the values before; what comes after it is larger than both.
      have hnext : ∀ {best count}, Leading (pre ++ List.replicate (n + 1) v) best count →
          ∃ m c, longestRun? (pre ++ (List.replicate (n + 1) v ++ later)).toArray
              (pre.length + (n + 1)) best count = some m ∧
            Leading (pre ++ (List.replicate (n + 1) v ++ later)) m c := by
        intro best count hbest
        have hbefore : ∀ x ∈ pre ++ List.replicate (n + 1) v, ∀ y ∈ later, x < y := by
          intro x hx y hy
          rcases List.mem_append.mp hx with hx | hx
          · exact (hv x hx).trans (hlater y hy)
          · rw [List.eq_of_mem_replicate hx]
            exact hlater y hy
        have hshorter : later.length < length := by
          rw [List.length_append, List.length_replicate] at hlength
          omega
        have hgoes := ih later.length hshorter _ later (List.pairwise_append.mp hsorted).2.1
          hbefore hbest rfl
        simpa using hgoes
      split
      · next hlonger => exact hnext (h.overtaken (fun hmem => lt_irrefl v (hv v hmem)) hlonger)
      · next hshort => exact hnext (h.kept hv (Nat.succ_pos n) (not_lt.mp hshort))

/-- The mode of ascending values is found, and it leads among them. -/
theorem mode?_leading {s : List α} (hne : s ≠ []) (hsorted : s.Pairwise (· ≤ ·)) :
    ∃ m ∈ s, mode? s.toArray = some m ∧ Leading s m (s.count m) := by
  obtain ⟨first, tail, rfl⟩ := List.exists_cons_of_ne_nil hne
  obtain ⟨m, c, hfound, hlead⟩ := longestRun?_leading [] (first :: tail) hsorted
    (fun x hx => absurd hx List.not_mem_nil) (Leading.nil first)
  rw [List.nil_append] at hfound hlead
  have hpos : 0 < c := by
    have hfirst := hlead.most first
    rw [List.count_cons_self] at hfirst
    omega
  refine ⟨m, List.count_pos_iff.mp (by rwa [hlead.count_eq]), ?_, by rwa [hlead.count_eq]⟩
  rw [mode?, List.getElem?_toArray, List.getElem?_cons_zero]
  exact hfound

end Scan

/-! ### Values compared through others -/

section Map

variable {α β : Type} [BEq α] [BEq β] {f : α → β} (hf : ∀ a b, (f a == f b) = (a == b))

include hf

private theorem runEnd?_map (vs : Array α) (i j : ℕ) : runEnd? (vs.map f) i j = runEnd? vs i j := by
  induction hd : vs.size - j generalizing j with
  | zero =>
    rw [runEnd?, if_neg (by simp; omega), runEnd?, if_neg (by omega)]
  | succ d ih =>
    rw [runEnd?, if_pos (by simp; omega), Array.getElem?_map, Array.getElem?_map]
    conv_rhs => rw [runEnd?, if_pos (by omega)]
    cases vs[i]? <;> cases vs[j]? <;> simp [hf, ih (j + 1) (by omega)]

private theorem longestRun?_map (vs : Array α) (i : ℕ) (best : α) (count : ℕ) :
    longestRun? (vs.map f) i (f best) count = (longestRun? vs i best count).map f := by
  induction hd : vs.size - i using Nat.strong_induction_on generalizing i best count with
  | _ d ih =>
    rw [longestRun?, Array.size_map, Array.getElem?_map, runEnd?_map hf]
    conv_rhs => rw [longestRun?]
    split
    · next hlt =>
      cases vs[i]? with
      | none => rfl
      | some v =>
        cases runEnd? vs i i with
        | none => rfl
        | some j =>
          by_cases hround : i < j
          · have hnext := fun best count => ih (vs.size - j) (by omega) j best count rfl
            simp only [Option.map_some, if_pos hround, hnext]
            split <;> rfl
          · simp only [Option.map_some, if_neg hround, Option.map_none]
    · rfl

/-- The scan sees of its values only which of them are equal. -/
theorem mode?_map (vs : Array α) : mode? (vs.map f) = (mode? vs).map f := by
  rw [mode?, mode?, Array.getElem?_map]
  cases vs[0]? with
  | none => rfl
  | some first => exact longestRun?_map hf vs 0 first 0

end Map

end Statistic

/-! ### Exact numbers -/

namespace Arithmetic

/-- Numbers that are equal only if they are the same, and that are in a linear order. Nothing is
asked of NaN values. -/
class Exact (ν : Type) [Arithmetic ν] : Prop where
  beq_iff_eq : ∀ {a b : ν}, isNaN a = false → isNaN b = false → ((a == b) = true ↔ a = b)
  asymm : ∀ {a b : ν}, isNaN a = false → isNaN b = false → less a b = true → less b a = false
  trans : ∀ {a b c : ν}, isNaN a = false → isNaN b = false → isNaN c = false →
    less b a = false → less c b = false → less c a = false
  antisymm : ∀ {a b : ν}, isNaN a = false → isNaN b = false → less a b = false → less b a = false →
    a = b

/-- A value that is not NaN. -/
@[ext] structure Comparable (ν : Type) [Arithmetic ν] where
  value : ν
  number : isNaN value = false

namespace Comparable

variable {ν : Type} [Arithmetic ν] [Exact ν]

instance : LinearOrder (Comparable ν) where
  le a b := less b.value a.value = false
  le_refl a := by
    cases h : less a.value a.value with
    | false => rfl
    | true => exact h.symm.trans (Exact.asymm a.number a.number h)
  le_trans a b c hab hbc := Exact.trans a.number b.number c.number hab hbc
  le_antisymm a b hab hba := Comparable.ext (Exact.antisymm a.number b.number hba hab)
  le_total a b := by
    cases h : less b.value a.value with
    | false => exact Or.inl rfl
    | true => exact Or.inr (Exact.asymm b.number a.number h)
  toDecidableLE a b := inferInstanceAs (Decidable (_ = false))

theorem le_iff {a b : Comparable ν} : a ≤ b ↔ less b.value a.value = false := Iff.rfl

theorem value_beq (a b : Comparable ν) : (a.value == b.value) = (a == b) := by
  rw [Bool.eq_iff_iff, Exact.beq_iff_eq a.number b.number, beq_iff_eq, Comparable.ext_iff]

theorem max_value (a b : Comparable ν) : Arithmetic.max a.value b.value = (a ⊔ b).value := by
  rw [Arithmetic.max, b.number, Bool.false_or]
  split
  · next h => rw [max_eq_left (le_iff.mpr (Exact.asymm b.number a.number h))]
  · next h => rw [max_eq_right (le_iff.mpr (eq_false_of_ne_true h))]

theorem min_value (a b : Comparable ν) : Arithmetic.min a.value b.value = (a ⊓ b).value := by
  rw [Arithmetic.min, b.number, Bool.false_or]
  split
  · next h => rw [min_eq_left (le_iff.mpr (Exact.asymm a.number b.number h))]
  · next h => rw [min_eq_right (le_iff.mpr (eq_false_of_ne_true h))]

/-- The values that are not NaN. -/
def ofList (values : List ν) : List (Comparable ν) :=
  values.filterMap fun v => if h : isNaN v = false then some ⟨v, h⟩ else none

omit [Exact ν] in
theorem map_ofList (values : List ν) :
    (ofList values).map value = values.filter fun v => !isNaN v := by
  induction values with
  | nil => rfl
  | cons v values ih =>
    rw [ofList] at ih ⊢
    cases h : isNaN v <;> simp [h, ih]

end Comparable

end Arithmetic

/-! ### Statistics through comparable values -/

namespace Statistic

open Arithmetic (less nan isNaN ofInt Exact Comparable)

/-- Whether a statistic is about the order of the values. -/
def isOrder : Statistic → Bool
  | max | min | range | median | mode => true
  | mean | sdev | sum | variance => false

/-- The values that count. -/
def sample {ν : Type} [Arithmetic ν] (values : List ν) : List ν := values.filter fun v => !isNaN v

variable {ν : Type} [Arithmetic ν] [Exact ν]

omit [Exact ν] in
private theorem sample_eq (values : List ν) :
    sample values = (Comparable.ofList values).map Comparable.value :=
  (Comparable.map_ofList values).symm

private theorem largest_value (a : Comparable ν) (as : List (Comparable ν)) :
    ((a :: as).max?).map Comparable.value = some (largest a.value (as.map Comparable.value)) := by
  rw [List.max?_cons', largest, List.foldl_map, Option.map_some,
    List.foldl_hom Comparable.value fun a b => Comparable.max_value a b]

private theorem smallest_value (a : Comparable ν) (as : List (Comparable ν)) :
    ((a :: as).min?).map Comparable.value = some (smallest a.value (as.map Comparable.value)) := by
  rw [List.min?_cons', smallest, List.foldl_map, Option.map_some,
    List.foldl_hom Comparable.value fun a b => Comparable.min_value a b]

private theorem sorted_values (as : List (Comparable ν)) :
    sorted (as.map Comparable.value) = (as.mergeSort (· ≤ ·)).map Comparable.value := by
  refine (List.map_mergeSort fun a _ b _ => ?_).symm
  rw [Bool.eq_iff_iff]
  simp [Comparable.le_iff]

section Perm

variable {a b : Comparable ν} {as bs : List (Comparable ν)}

private theorem largest_perm (h : (a :: as).Perm (b :: bs)) :
    largest a.value (as.map Comparable.value) = largest b.value (bs.map Comparable.value) := by
  have hmax : (a :: as).max? = (b :: bs).max? :=
    Option.ext fun m => by simp only [List.max?_eq_some_iff, h.mem_iff]
  exact Option.some.inj ((largest_value a as).symm.trans (hmax ▸ largest_value b bs))

private theorem smallest_perm (h : (a :: as).Perm (b :: bs)) :
    smallest a.value (as.map Comparable.value) = smallest b.value (bs.map Comparable.value) := by
  have hmin : (a :: as).min? = (b :: bs).min? :=
    Option.ext fun m => by simp only [List.min?_eq_some_iff, h.mem_iff]
  exact Option.some.inj ((smallest_value a as).symm.trans (hmin ▸ smallest_value b bs))

private theorem sorted_perm (h : as.Perm bs) :
    sorted (as.map Comparable.value) = sorted (bs.map Comparable.value) := by
  have hsame : as.mergeSort (· ≤ ·) = bs.mergeSort (· ≤ ·) :=
    ((List.mergeSort_perm as _).trans (h.trans (List.mergeSort_perm bs _).symm)).eq_of_pairwise'
      (List.pairwise_mergeSort' (· ≤ ·) as) (List.pairwise_mergeSort' (· ≤ ·) bs)
  rw [sorted_values, sorted_values, hsame]

private theorem ofSample_perm {s : Statistic} (hs : s.isOrder = true)
    (h : (a :: as).Perm (b :: bs)) :
    s.ofSample a.value (as.map Comparable.value) =
      s.ofSample b.value (bs.map Comparable.value) := by
  have hsorted := sorted_perm h
  rw [List.map_cons, List.map_cons] at hsorted
  cases s with
  | max => exact largest_perm h
  | min => exact smallest_perm h
  | range => rw [ofSample, ofSample, largest_perm h, smallest_perm h]
  | median => rw [ofSample, ofSample, hsorted]
  | mode => rw [ofSample, ofSample, hsorted]
  | mean | sdev | sum | variance => cases hs

end Perm

section Apply

variable {values : List ν} {a : Comparable ν} {as : List (Comparable ν)}

omit [Exact ν] in
private theorem apply_of_empty (s : Statistic) (h : Comparable.ofList values = []) :
    s.apply values = nan := by
  rw [apply, ← Comparable.map_ofList, h]
  rfl

omit [Exact ν] in
private theorem apply_of_sample (s : Statistic) (h : Comparable.ofList values = a :: as) :
    s.apply values = s.ofSample a.value (as.map Comparable.value) := by
  rw [apply, ← Comparable.map_ofList, h]
  rfl

private theorem apply_perm {s : Statistic} (hs : s.isOrder = true) {other : List ν}
    (h : values.Perm other) : s.apply values = s.apply other := by
  have hperm : (Comparable.ofList values).Perm (Comparable.ofList other) := h.filterMap _
  cases hvalues : Comparable.ofList values with
  | nil =>
    rw [hvalues] at hperm
    rw [apply_of_empty s hvalues, apply_of_empty s hperm.nil_eq.symm]
  | cons a as =>
    cases hother : Comparable.ofList other with
    | nil =>
      rw [hvalues, hother] at hperm
      cases hperm.eq_nil
    | cons b bs =>
      rw [hvalues, hother] at hperm
      rw [apply_of_sample s hvalues, apply_of_sample s hother, ofSample_perm hs hperm]

end Apply

/-- A most frequent value of a sample, the smallest of several. -/
structure IsMode (sample : List ν) (m : ν) : Prop where
  mem : m ∈ sample
  most : ∀ x ∈ sample, sample.count x ≤ sample.count m
  least : ∀ x ∈ sample, sample.count x = sample.count m → less x m = false

private theorem count_values (a : Comparable ν) (as : List (Comparable ν)) :
    (as.map Comparable.value).count a.value = as.count a := by
  rw [List.count, List.countP_map, List.count]
  exact List.countP_congr fun b _ => by rw [Function.comp_apply, Comparable.value_beq]

/-- The scan over the sorted sample finds its mode. -/
theorem mode?_sorted {as : List (Comparable ν)} (hne : as ≠ []) :
    ∃ m, mode? (sorted (as.map Comparable.value)).toArray = some m ∧
      IsMode (as.map Comparable.value) m := by
  have hperm := List.mergeSort_perm as (· ≤ ·)
  obtain ⟨m, hmem, hfound, hlead⟩ := mode?_leading
    (fun hnil => hne (List.Perm.eq_nil (hnil ▸ hperm).symm))
    (List.pairwise_mergeSort' (· ≤ ·) as)
  have hcount : ∀ x, (as.mergeSort (· ≤ ·)).count x = as.count x := hperm.count_eq
  refine ⟨m.value, ?_, List.mem_map_of_mem (hperm.mem_iff.mp hmem), ?_, ?_⟩
  · rw [sorted_values, ← List.map_toArray, mode?_map Comparable.value_beq, hfound, Option.map_some]
  · intro x hx
    obtain ⟨b, -, rfl⟩ := List.mem_map.mp hx
    rw [count_values, count_values, ← hcount, ← hcount]
    exact hlead.most b
  · intro x hx hsame
    obtain ⟨b, hb, rfl⟩ := List.mem_map.mp hx
    rw [count_values, count_values, ← hcount, ← hcount] at hsame
    exact Comparable.le_iff.mp (hlead.least b (hperm.mem_iff.mpr hb) hsame)

/-- The middle value of an ascending list, or the mean of the two in the middle. -/
def IsMiddle (ascending : List ν) (m : ν) : Prop :=
  (ascending.length % 2 = 1 → ascending[ascending.length / 2]? = some m) ∧
    (ascending.length % 2 = 0 → ∃ a b, ascending[ascending.length / 2 - 1]? = some a ∧
      ascending[ascending.length / 2]? = some b ∧ m = (a + b) / ofInt 2)

omit [Exact ν] in
private theorem isMiddle_middle {ascending : List ν} (hne : ascending ≠ []) :
    IsMiddle ascending (middle ascending) := by
  have hpos := List.length_pos_iff.mpr hne
  have hread : ∀ {i}, i < ascending.length → ascending[i]? = some (ascending.getD i nan) := by
    intro i hi
    rw [List.getD_eq_getElem?_getD, List.getElem?_eq_getElem hi, Option.getD_some]
  refine ⟨fun hodd => ?_, fun heven => ⟨_, _, hread (by omega), hread (by omega), ?_⟩⟩
  · rw [middle, if_neg (by omega)]
    exact hread (by omega)
  · rw [middle, if_pos heven]

section Sample

variable {values : List ν} (hne : sample values ≠ [])

include hne

omit [Exact ν] in
private theorem apply_eq_ofSample : ∃ v vs, sample values = v :: vs ∧
    ∀ s : Statistic, s.apply values = s.ofSample v vs := by
  obtain ⟨v, vs, hsample⟩ := List.exists_cons_of_ne_nil hne
  refine ⟨v, vs, hsample, fun s => ?_⟩
  rw [sample] at hsample
  rw [apply, hsample]

omit [Exact ν] in
private theorem ofList_ne_nil : Comparable.ofList values ≠ [] := fun hnil =>
  hne (by rw [sample_eq, hnil, List.map_nil])

omit [Exact ν] in
private theorem sorted_ne_nil : sorted (sample values) ≠ [] := by
  have hperm : (sorted (sample values)).Perm (sample values) := List.mergeSort_perm ..
  intro hnil
  rw [hnil] at hperm
  exact hne hperm.nil_eq.symm

/-- The scan gives the mode. -/
theorem mode_apply : mode? (sorted (sample values)).toArray = some (mode.apply values) ∧
    IsMode (sample values) (mode.apply values) := by
  obtain ⟨v, vs, hsample, happly⟩ := apply_eq_ofSample hne
  obtain ⟨m, hfound, hmode⟩ := mode?_sorted (ofList_ne_nil hne)
  rw [← sample_eq] at hfound hmode
  have hm : mode.apply values = m := by
    rw [happly, ofSample, ← hsample, modeOf, hfound, Option.getD_some]
  exact ⟨hm ▸ hfound, hm ▸ hmode⟩

omit [Exact ν] in
private theorem median_apply : IsMiddle (sorted (sample values)) (median.apply values) := by
  obtain ⟨v, vs, hsample, happly⟩ := apply_eq_ofSample hne
  rw [happly, ofSample, ← hsample]
  exact isMiddle_middle (sorted_ne_nil hne)

private theorem extremes_apply :
    (max.apply values ∈ sample values ∧ ∀ x ∈ sample values, less (max.apply values) x = false) ∧
    (min.apply values ∈ sample values ∧ ∀ x ∈ sample values, less x (min.apply values) = false) ∧
    range.apply values = max.apply values - min.apply values := by
  obtain ⟨a, as, hvalues⟩ := List.exists_cons_of_ne_nil (ofList_ne_nil hne)
  obtain ⟨greatest, hgreatest, hmax⟩ := Option.map_eq_some_iff.mp (largest_value a as)
  obtain ⟨least, hleast, hmin⟩ := Option.map_eq_some_iff.mp (smallest_value a as)
  rw [List.max?_eq_some_iff] at hgreatest
  rw [List.min?_eq_some_iff] at hleast
  rw [apply_of_sample max hvalues, apply_of_sample min hvalues, apply_of_sample range hvalues,
    sample_eq, hvalues]
  simp only [ofSample, ← hmax, ← hmin]
  refine ⟨⟨List.mem_map_of_mem hgreatest.1, ?_⟩, ⟨List.mem_map_of_mem hleast.1, ?_⟩, trivial⟩
  · exact List.forall_mem_map.mpr hgreatest.2
  · exact List.forall_mem_map.mpr hleast.2

end Sample

/-- The statistics of order depend only on which values a sample has and how often: not on the order
in which they stand, and not on NaN values. Of a sample with a value, the mode is the smallest of
its most frequent values, which the scan over the sorted sample finds with no place out of range,
and the median is the middle of the sorted sample. -/
theorem order_statistics_of_multiset (values : List ν) :
    (∀ s : Statistic, s.isOrder = true →
      (∀ other, values.Perm other → s.apply values = s.apply other) ∧
      s.apply (sample values) = s.apply values) ∧
    (sample values ≠ [] →
      (max.apply values ∈ sample values ∧
        ∀ x ∈ sample values, less (max.apply values) x = false) ∧
      (min.apply values ∈ sample values ∧
        ∀ x ∈ sample values, less x (min.apply values) = false) ∧
      range.apply values = max.apply values - min.apply values ∧
      mode? (sorted (sample values)).toArray = some (mode.apply values) ∧
      IsMode (sample values) (mode.apply values) ∧
      (sorted (sample values)).Perm (sample values) ∧
      (sorted (sample values)).Pairwise (fun a b => less b a = false) ∧
      IsMiddle (sorted (sample values)) (median.apply values)) := by
  refine ⟨fun s hs => ⟨fun other hperm => apply_perm hs hperm, ?_⟩, fun hne => ?_⟩
  · rw [apply, apply, sample, List.filter_filter]
    simp only [Bool.and_self]
  · obtain ⟨hmax, hmin, hrange⟩ := extremes_apply hne
    obtain ⟨hfound, hmode⟩ := mode_apply hne
    refine ⟨hmax, hmin, hrange, hfound, hmode, List.mergeSort_perm .., ?_, median_apply hne⟩
    rw [sample_eq, sorted_values, List.pairwise_map]
    exact List.pairwise_mergeSort' (· ≤ ·) _

end Statistic

/-! ### Fractions as exact numbers -/

/-- Fractions, and a value that is none. -/
inductive Fraction where
  | nan
  | number (q : ℚ)
deriving DecidableEq

namespace Fraction

def lift (op : ℚ → ℚ → ℚ) : Fraction → Fraction → Fraction
  | number a, number b => number (op a b)
  | _, _ => nan

instance : Arithmetic Fraction where
  add := lift (· + ·)
  sub := lift (· - ·)
  mul := lift (· * ·)
  div a b := if b = number 0 then nan else lift (· / ·) a b
  beq
    | number a, number b => a == b
    | _, _ => false
  less
    | number a, number b => a < b
    | _, _ => false
  nan := nan
  isNaN
    | nan => true
    | number _ => false
  ofInt i := number i
  sqrt
    | number a => if Rat.sqrt a * Rat.sqrt a = a then number (Rat.sqrt a) else nan
    | nan => nan
  nearest?
    | number a => some (Number.nearestAway a)
    | nan => none

private theorem exists_number {a : Fraction} (h : Arithmetic.isNaN a = false) :
    ∃ q, a = number q := by
  cases a with
  | nan => cases h
  | number q => exact ⟨q, rfl⟩

private theorem less_eq_false_iff {a b : ℚ} :
    Arithmetic.less (number a) (number b) = false ↔ b ≤ a :=
  decide_eq_false_iff_not.trans not_lt

instance : Arithmetic.Exact Fraction where
  beq_iff_eq ha hb := by
    obtain ⟨a, rfl⟩ := exists_number ha
    obtain ⟨b, rfl⟩ := exists_number hb
    rw [Fraction.number.injEq]
    exact beq_iff_eq (α := ℚ)
  asymm ha hb h := by
    obtain ⟨a, rfl⟩ := exists_number ha
    obtain ⟨b, rfl⟩ := exists_number hb
    exact less_eq_false_iff.mpr (of_decide_eq_true h : a < b).le
  trans ha hb hc hab hbc := by
    obtain ⟨a, rfl⟩ := exists_number ha
    obtain ⟨b, rfl⟩ := exists_number hb
    obtain ⟨c, rfl⟩ := exists_number hc
    rw [less_eq_false_iff] at hab hbc ⊢
    exact hab.trans hbc
  antisymm ha hb hab hba := by
    obtain ⟨a, rfl⟩ := exists_number ha
    obtain ⟨b, rfl⟩ := exists_number hb
    rw [less_eq_false_iff] at hab hba
    rw [le_antisymm hba hab]

end Fraction

namespace Statistic

open Arithmetic (less)

def tied : List Fraction := [.number 3, .nan, .number 1, .number 2, .number 3, .number 1]

/-- Two values of the sample occur twice each, and the smaller is its mode. -/
theorem tied_statistics :
    sample tied = [.number 3, .number 1, .number 2, .number 3, .number 1] ∧
    mode.apply tied = .number 1 ∧ range.apply tied = range.apply tied.reverse := by
  have hsample : sample tied = [.number 3, .number 1, .number 2, .number 3, .number 1] := rfl
  obtain ⟨horder, hfound⟩ := order_statistics_of_multiset tied
  obtain ⟨-, -, -, -, hmode, -⟩ := hfound (hsample ▸ List.cons_ne_nil _ _)
  refine ⟨hsample, ?_, (horder range rfl).1 _ tied.reverse_perm.symm⟩
  rw [hsample] at hmode
  have hone : ∀ m ∈ [Fraction.number 3, .number 1, .number 2, .number 3, .number 1],
      [Fraction.number 3, .number 1, .number 2, .number 3, .number 1].count m ≤
        [Fraction.number 3, .number 1, .number 2, .number 3, .number 1].count (.number 1) ∧
      (less (.number 1) m = false → m = .number 1) := by decide +kernel
  obtain ⟨hfewer, heq⟩ := hone _ hmode.mem
  have hmem : Fraction.number 1 ∈ [Fraction.number 3, .number 1, .number 2, .number 3, .number 1] :=
    List.mem_cons_of_mem _ List.mem_cons_self
  exact heq (hmode.least _ hmem (le_antisymm (hmode.most _ hmem) hfewer))

end Statistic

end RasterScript
