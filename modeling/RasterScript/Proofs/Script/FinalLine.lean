import RasterScript.Proofs.Compilation.Dialects
import RasterScript.Proofs.Token.Lines

/-! Where the end of a text ends a statement, a final line end may be left out. The line end that
closes the last statement may be any: it gives its end to the places of the statements that it
closes, and nothing else. -/
namespace RasterScript

namespace Stmt

mutual

/-- The statement without its place and the places of the statements in it. Names and expressions
keep theirs. -/
def unplaced : Stmt → Stmt
  | .assign target op value _ => .assign target op value default
  | .cond test yes no _ => .cond test yes.unplaced (unplacedOther no) default
  | .loop kind test body _ => .loop kind test body.unplaced default
  | .foreach var source body _ => .foreach var source body.unplaced default
  | .block body _ => .block (unplacedAll body) default
  | .breakIf test _ => .breakIf test default
  | .leave _ => .leave default

def unplacedOther : Option Stmt → Option Stmt
  | none => none
  | some s => some s.unplaced

def unplacedAll : List Stmt → List Stmt
  | [] => []
  | s :: ss => s.unplaced :: unplacedAll ss

end

end Stmt

/-- The item without the places of statements. -/
def Item.unplaced : Item → Item
  | .stmt s => .stmt s.unplaced
  | i => i

namespace Script.Derivation

variable {A : Groups} {ts xs : List Token} {t n : Token} {P Q : List Token → Prop}

/-! ### Another line end in the last place -/

/-- If the tokens end in a line end, `P` holds of them with any other line end in its place. -/
def Relined (ts : List Token) (P : List Token → Prop) : Prop :=
  ∀ pre n e, ts = pre ++ [n] → n.kind = .newline → e.kind = .newline → P (pre ++ [e])

theorem Relined.mono (h : Relined ts P) (hPQ : ∀ us, P us → Q us) : Relined ts Q := by
  intro pre n e hts hn he
  exact hPQ _ (h pre n e hts hn he)

theorem Relined.line (ts : List Token) (t : Token) :
    Relined (ts ++ [t]) fun us => ∃ u, us = ts ++ [u] ∧ u.isTerminator := by
  intro pre n e hts _ he
  obtain ⟨rfl, -⟩ := List.append_inj' hts rfl
  exact ⟨e, rfl, isTerminator_of_newline he⟩

theorem Relined.rbrace (ts : List Token) (ht : t.kind = .rbrace) : Relined (ts ++ [t]) P := by
  intro pre n e hts hn _
  obtain ⟨-, hlast⟩ := List.append_inj' hts rfl
  rw [← List.singleton_inj.mp hlast, ht] at hn
  cases hn

theorem Relined.after (ts : List Token) (hne : xs ≠ []) (h : Relined xs P) :
    Relined (ts ++ xs) fun us => ∃ vs, us = ts ++ vs ∧ P vs := by
  intro pre n e hts hn he
  obtain rfl | ⟨ys, u, rfl⟩ := List.eq_nil_or_concat xs
  · exact absurd rfl hne
  · rw [List.concat_eq_append] at h hts
    rw [← List.append_assoc] at hts
    obtain ⟨rfl, hlast⟩ := List.append_inj' hts rfl
    obtain rfl := List.singleton_inj.mp hlast
    exact ⟨ys ++ [e], List.append_assoc .., h ys u e rfl hn he⟩

theorem Ends.ne_nil (h : Ends ts) : ts ≠ [] := by
  rintro rfl
  rcases h with ⟨pre, c, heq, -⟩ | ⟨pre, p, t, heq, -⟩ <;> simp at heq

theorem Statement.relined : ∀ {ts s}, Statement A ts s →
    Relined ts fun us => ∃ s', Statement A us s' ∧ s'.unplaced = s.unplaced
  | _, _, .block _ _ hc => Relined.rbrace (_ :: _) hc
  | _, _, @Statement.assign _ ts o i _ _ _ hi ho he _ => by
    refine (Relined.line (i :: o :: ts) _).mono ?_
    rintro _ ⟨u, rfl, hu⟩
    exact ⟨_, .assign hi ho he hu, by simp only [Stmt.unplaced]⟩
  | _, _, @Statement.cond _ ts _ k _ _ hk htest hyes => by
    refine (hyes.relined.after (k :: ts) hyes.ends.ne_nil).mono ?_
    rintro _ ⟨us, rfl, yes, hyes, hsame⟩
    exact ⟨_, .cond hk htest hyes, by simp only [Stmt.unplaced, hsame]⟩
  | _, _, @Statement.condElse _ ts xs ys o k _ _ _ ends hk htest hyes hopen hends ho hno => by
    have hrelined := hno.relined.after (k :: (ts ++ (xs ++ (ends ++ [o])))) hno.ends.ne_nil
    simp only [List.cons_append, List.append_assoc, List.nil_append] at hrelined
    refine hrelined.mono ?_
    rintro _ ⟨us, rfl, no, hno, hsame⟩
    exact ⟨_, .condElse hk htest hyes hopen hends ho hno,
      by simp only [Stmt.unplaced, Stmt.unplacedOther, hsame]⟩
  | _, _, @Statement.loop _ ts _ k _ _ _ hk htest hbody => by
    refine (hbody.relined.after (k :: ts) hbody.ends.ne_nil).mono ?_
    rintro _ ⟨us, rfl, body, hbody, hsame⟩
    exact ⟨_, .loop hk htest hbody, by simp only [Stmt.unplaced, hsame]⟩
  | _, _, @Statement.foreach _ ts xs o c i k _ _ kin hk ho hi hin hsource hc hbody => by
    have hrelined := hbody.relined.after (k :: o :: i :: kin :: (ts ++ [c])) hbody.ends.ne_nil
    simp only [List.cons_append, List.append_assoc, List.nil_append] at hrelined
    refine hrelined.mono ?_
    rintro _ ⟨us, rfl, body, hbody, hsame⟩
    exact ⟨_, .foreach hk ho hi hin hsource hc hbody, by simp only [Stmt.unplaced, hsame]⟩
  | _, _, @Statement.breakIf _ ts k _ _ hk htest _ => by
    refine (Relined.line (k :: ts) _).mono ?_
    rintro _ ⟨u, rfl, hu⟩
    exact ⟨_, .breakIf hk htest hu, by simp only [Stmt.unplaced]⟩
  | _, _, @Statement.leave _ k _ hk _ => by
    refine (Relined.line [k] _).mono ?_
    rintro _ ⟨u, rfl, hu⟩
    exact ⟨_, .leave hk hu, by simp only [Stmt.unplaced]⟩

theorem TopStatement.relined {i : Item} (h : TopStatement A ts i) :
    Relined ts fun us => ∃ j, TopStatement A us j ∧ j.unplaced = i.unplaced := by
  cases h with
  | images _ _ _ hc | init _ _ _ hc | options _ _ _ hc => exact Relined.rbrace (_ :: _ :: _) hc
  | statement hs =>
    refine hs.relined.mono ?_
    rintro us ⟨s, hs, hsame⟩
    exact ⟨.stmt s, .statement hs, congrArg Item.stmt hsame⟩

/-- With another line end in the last place, tokens are a script of the same items, the places of
statements apart. -/
theorem Whole.relined {items : List Item} (h : Whole A ts items) :
    Relined ts fun us => ∃ js, Whole A us js ∧ js.map Item.unplaced = items.map Item.unplaced := by
  induction h with
  | done =>
    intro pre n e hts
    cases pre <;> cases hts
  | @terminator ts t items ht hrest ih =>
    by_cases hnil : ts = []
    · subst hnil
      refine (Relined.line [] _).mono ?_
      rintro _ ⟨u, rfl, hu⟩
      exact ⟨items, .terminator hu hrest, rfl⟩
    · refine (ih.after [t] hnil).mono ?_
      rintro _ ⟨us, rfl, js, hjs, hsame⟩
      exact ⟨js, .terminator ht hjs, hsame⟩
  | @entry ts xs i items hi hrest ih =>
    by_cases hnil : xs = []
    · subst hnil
      rw [List.append_nil]
      refine hi.relined.mono ?_
      rintro us ⟨j, hj, hsame⟩
      refine ⟨j :: items, ?_, by rw [List.map_cons, List.map_cons, hsame]⟩
      simpa using Entries.entry hj hrest
    · refine (ih.after ts hnil).mono ?_
      rintro _ ⟨us, rfl, js, hjs, hsame⟩
      exact ⟨i :: js, .entry hi hjs, by rw [List.map_cons, List.map_cons, hsame]⟩

/-! ### One line end more -/

/-- A script may end in one terminator more. -/
theorem Whole.concat {items : List Item} (h : Whole A ts items) (hn : n.isTerminator) :
    Whole A (ts ++ [n]) items := by
  induction h with
  | done => exact .terminator hn .done
  | terminator ht _ ih => exact .terminator ht ih
  | entry hi _ ih =>
    rw [List.append_assoc]
    exact .entry hi ih

/-- Where tokens end in a line end, the end of the text has nothing to close. -/
theorem InDialect.whole {dialect : Dialect} {items : List Item} (hn : n.kind = .newline)
    (h : InDialect A dialect (ts ++ [n]) items) : Whole A (ts ++ [n]) items := by
  have hpieces := inDialect_iff.mp h
  have hflat := flatten_chunksAt 0 (ts ++ [n])
  obtain hnil | ⟨cs, c, hlast⟩ := List.eq_nil_or_concat (chunks (ts ++ [n]))
  · rw [show chunksAt 0 (ts ++ [n]) = [] from hnil] at hflat
    simp at hflat
  · rw [List.concat_eq_append] at hlast
    have hne : c ≠ [] := ne_nil_of_mem_chunksAt (hlast ▸ List.mem_concat_self)
    rw [show chunksAt 0 (ts ++ [n]) = cs ++ [c] from hlast, List.flatten_append,
      List.flatten_singleton] at hflat
    have hclosed : isClosed c := by
      have hend : c.getLast? = some n := by
        rw [← List.getLast?_append_of_ne_nil cs.flatten hne, hflat, List.getLast?_concat]
      rw [isClosed, hend]
      simp [isTerminator_of_newline hn]
    rw [pieces_eq hlast, closed_of_isClosed dialect hclosed] at hpieces
    have hwhole := whole_of_chunks _ hpieces
    rwa [List.flatten_append, List.flatten_singleton, hflat] at hwhole

/-- Where the end of the text ends a statement, a script may end in one line end more. -/
theorem InDialect.concat {dialect : Dialect} {items : List Item} (hn : n.kind = .newline)
    (h : InDialect A dialect ts items) :
    ∃ js, InDialect A dialect (ts ++ [n]) js ∧ js.map Item.unplaced = items.map Item.unplaced := by
  rcases h with h | ⟨-, h⟩
  · exact ⟨items, .inl (h.concat (isTerminator_of_newline hn)), rfl⟩
  · obtain ⟨js, hjs, hsame⟩ := h.relined ts (endLine ts) n rfl rfl hn
    exact ⟨js, .inl hjs, hsame⟩

/-- There a final line end may be left out. -/
theorem InDialect.of_concat {dialect : Dialect} {items : List Item} (hn : n.kind = .newline)
    (hdialect : dialect.endTerminates) (h : InDialect A dialect (ts ++ [n]) items) :
    ∃ js, InDialect A dialect ts js := by
  obtain ⟨js, hjs, -⟩ := (h.whole hn).relined ts n (endLine ts) rfl hn rfl
  exact ⟨js, .inr ⟨hdialect, hjs⟩⟩

end Script.Derivation

namespace Script

open Script.Derivation

/-- A line end after a text without faults is one token more. -/
theorem frame_append_newline {text : String}
    (h : ((Token.scan text).frame .extended).faults = []) :
    ∃ n : Token, n.kind = .newline ∧
      ((Token.scan (text ++ "\n")).frame .extended).tokens =
        ((Token.scan text).frame .extended).tokens ++ [n] ∧
      ((Token.scan (text ++ "\n")).frame .extended).faults = [] := by
  have hscan : (Token.scan text).faults = [] := (frame_faults_eq_nil.mp h).1
  have hseam := (Token.lexed_scanFrom 0 text.toList).scanFrom_append_newline (b := []) hscan
  have hlist : text.toList ++ ['\n'] = (text ++ "\n").toList := by
    rw [String.toList_append]
    rfl
  rw [hlist, ← Token.scan_eq_scanFrom, Nat.zero_add, Token.byteLength_toList] at hseam
  rw [hseam]
  refine ⟨⟨.newline, "\n", ⟨text.utf8ByteSize, text.utf8ByteSize + 1⟩⟩, rfl, ?_, ?_⟩
  · simp only [Token.Scan.frame, List.filter_append]
    rfl
  · exact frame_faults_eq_nil.mpr ⟨rfl, fun t _ => extended_continuationFault? t⟩

/-- A text without lexical faults is read without a fault if and only if it is a script. -/
theorem diagnostics_eq_nil_iff {text : String} {dialect : Dialect}
    (h : ((Token.scan text).frame dialect).faults = []) :
    (parse text dialect).diagnostics = [] ↔
      ∃ items, InDialect anyGroups dialect ((Token.scan text).frame dialect).tokens items := by
  rw [← faultless_iff]
  simp [parse, h]

/-- In the extended dialect a final line end is optional: with it, a text without lexical faults is
read without a fault if and only if it is so without it, and then as the same items, the places of
statements apart. -/
theorem final_newline_optional (text : String)
    (h : ((Token.scan text).frame .extended).faults = []) :
    ((parse text .extended).diagnostics = [] ↔
      (parse (text ++ "\n") .extended).diagnostics = []) ∧
    ((parse text .extended).diagnostics = [] →
      (parse (text ++ "\n") .extended).script.items.map Item.unplaced =
        (parse text .extended).script.items.map Item.unplaced) := by
  obtain ⟨n, hn, htokens, hfaults⟩ := frame_append_newline h
  rw [diagnostics_eq_nil_iff h, diagnostics_eq_nil_iff hfaults, htokens]
  refine ⟨⟨?_, ?_⟩, ?_⟩
  · rintro ⟨items, hitems⟩
    obtain ⟨js, hjs, -⟩ := hitems.concat hn
    exact ⟨js, hjs⟩
  · rintro ⟨items, hitems⟩
    exact hitems.of_concat hn rfl
  · rintro ⟨items, hitems⟩
    obtain ⟨js, hjs, hsame⟩ := hitems.concat hn
    rw [parse_items hitems, parse_items (htokens ▸ hjs), hsame]

/-- A choice whose second branch has no line end; a comment ends the text. -/
def openChoice : String := "a = 1\nif (a > 0) b = 2\n\nelse while (b) breakif (a) // done"

theorem openChoice_read :
    ((Token.scan openChoice).frame .extended).faults = [] ∧
    (parse openChoice .extended).diagnostics = [] ∧
    (parse (openChoice ++ "\n") .extended).diagnostics = [] ∧
    (parse openChoice .extended).script.items.length = 2 ∧
    (parse (openChoice ++ "\n") .extended).script.items.map Item.unplaced =
      (parse openChoice .extended).script.items.map Item.unplaced := by
  -- One evaluation for all: each would read the text anew.
  obtain ⟨hfaults, hread, hitems⟩ : ((Token.scan openChoice).frame .extended).faults = [] ∧
      (parse openChoice .extended).diagnostics = [] ∧
      (parse openChoice .extended).script.items.length = 2 := by decide +kernel
  obtain ⟨hiff, hsame⟩ := final_newline_optional openChoice hfaults
  exact ⟨hfaults, hread, hiff.mp hread, hitems, hsame hread⟩

end Script

end RasterScript
