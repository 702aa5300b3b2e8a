import RasterScript.Compilation
import RasterScript.Proofs.Script.LineEnds

/-! A text whose lines end only after `;`, `{` and `}` is one script, in whichever dialect it is
read. -/
namespace RasterScript.Script

open Script.Derivation

/-- Whether a line may end after the tokens: the last one, line ends aside, may end a line. -/
def mayEndLine (ts : List Token) : Bool :=
  (ts.filter fun t => t.kind ≠ .newline).getLast?.all fun t => endsLine t.kind

/-- Every line ends after `;`, `{` or `}`, or is empty like all before it. -/
def LinesClosed (ts : List Token) : Prop :=
  ∀ i (h : i < ts.length), ts[i].kind = .newline → mayEndLine (ts.take i)

instance (ts : List Token) : Decidable (LinesClosed ts) :=
  inferInstanceAs (Decidable (∀ i (h : i < ts.length), ts[i].kind = .newline → _))

@[simp] theorem mayEndLine_nil : mayEndLine [] = true := rfl

private theorem mayEndLine_concat (ts : List Token) (t : Token) :
    mayEndLine (ts ++ [t]) = if t.kind = .newline then mayEndLine ts else endsLine t.kind := by
  unfold mayEndLine
  split
  · next h => simp [h]
  · next h => simp [h]

/-- The tokens of the extended dialect are those of the standard one, with line ends between. -/
theorem spaced_framed (before : List Token) {ts : List Token}
    (hmark : ∀ t ∈ ts, t.kind ≠ .continuation) (hlines : LinesClosed (before ++ ts)) :
    Spaced (mayEndLine before) (ts.filter (Token.isFramed .standard))
      (ts.filter (Token.isFramed .extended)) := by
  induction ts generalizing before with
  | nil => exact .done
  | cons t ts ih =>
    obtain ⟨ht, hmark⟩ := List.forall_mem_cons.mp hmark
    have hnext := ih (before ++ [t]) hmark (by simpa using hlines)
    rw [mayEndLine_concat] at hnext
    by_cases hk : t.kind = .newline
    · have hend : mayEndLine before = true := by
        simpa [hk] using hlines before.length (by simp)
      have hstandard : Token.isFramed .standard t = false := by
        simp [Token.isFramed, hk, Dialect.newlineTerminates]
      have hextended : Token.isFramed .extended t = true := by
        simp [Token.isFramed, hk, Dialect.newlineTerminates]
      simp only [List.filter_cons, hstandard, hextended, if_true, Bool.false_eq_true, if_false]
      rw [hend]
      exact .lineEnd hk (by simpa [hk, hend] using hnext)
    · have hframed : ∀ dialect, Token.isFramed dialect t = true := by
        intro dialect
        unfold Token.isFramed
        split
        · next h => exact absurd h hk
        · next h => exact absurd h ht
        · rfl
      simp only [List.filter_cons, hframed, if_true]
      exact .token hk (by simpa [hk] using hnext)

theorem frame_faults_eq_nil {s : Token.Scan} {dialect : Dialect} :
    (s.frame dialect).faults = [] ↔
      s.faults = [] ∧ ∀ t ∈ s.tokens, Token.continuationFault? dialect t = none := by
  rw [← List.length_eq_zero_iff, Token.Scan.frame, List.length_mergeSort,
    List.length_eq_zero_iff, List.append_eq_nil_iff, List.filterMap_eq_nil_iff]

/-- A text that the standard dialect reads without a fault has no line that is continued. -/
theorem kind_ne_continuation {t : Token} (h : Token.continuationFault? .standard t = none) :
    t.kind ≠ .continuation := by
  intro hk
  simp [Token.continuationFault?, hk, Dialect.continuationMark] at h

theorem extended_continuationFault? (t : Token) :
    Token.continuationFault? .extended t = none := by
  simp [Token.continuationFault?, Dialect.continuationMark]

theorem parse_extended {text : String} (hlines : LinesClosed (Token.scan text).tokens)
    (hread : (parse text .standard).diagnostics = []) :
    parse text .extended = parse text .standard := by
  have hfaults : ((Token.scan text).frame .standard).faults = [] ∧
      (readItems .standard ((Token.scan text).frame .standard).tokens).filterMap itemFault? = [] := by
    simpa [parse] using hread
  obtain ⟨hscan, hitems⟩ := hfaults
  obtain ⟨hnone, hmarks⟩ := frame_faults_eq_nil.mp hscan
  obtain ⟨items, hstandard⟩ := faultless_iff.mp hitems
  have hwhole : Whole anyGroups ((Token.scan text).frame .standard).tokens items := by
    rcases hstandard with h | ⟨h, -⟩
    · exact h
    · cases h
  have hspaced := spaced_framed [] (fun t ht => kind_ne_continuation (hmarks t ht)) hlines
  have hextended : InDialect anyGroups .extended ((Token.scan text).frame .extended).tokens items :=
    .inl (hwhole.spaced hspaced)
  have hframe : ((Token.scan text).frame .extended).faults = [] :=
    frame_faults_eq_nil.mpr ⟨hnone, fun t _ => extended_continuationFault? t⟩
  simp only [parse, readItems_of_derives hextended, readItems_of_derives hstandard, hframe, hscan]

end RasterScript.Script

namespace RasterScript.Compilation

/-- What a compile gives follows from what was read: only the origin of a program names the
dialect. -/
theorem ofText_of_parse_eq {text : String} {a b : Dialect}
    (h : Script.parse text a = Script.parse text b) (images : List (String × ImageRole))
    (name : Option String) :
    let first := ofText text ⟨a, images, name⟩
    let second := ofText text ⟨b, images, name⟩
    first.script = second.script ∧ first.binding = second.binding ∧
      first.phases = second.phases ∧ first.report = second.report ∧
      first.program.map Program.code = second.program.map Program.code := by
  simp only [ofText, h]
  split
  · simp
  · split
    · simp
    · simp [Function.comp_def]

/-- Where every line ends after `;`, `{` or `}`, a text that the standard dialect reads without a
fault is the same script in the extended one, to the last place, and compiles to the same code with
the same reports. A continued line is a fault in the standard dialect, so there is none. -/
theorem closed_lines_suit_both_dialects (text : String)
    (hlines : Script.LinesClosed (Token.scan text).tokens)
    (hread : (Script.parse text .standard).diagnostics = []) :
    (Script.parse text .extended).diagnostics = [] ∧
    (Script.parse text .extended).script = (Script.parse text .standard).script ∧
    ∀ images name,
      let extended := ofText text ⟨.extended, images, name⟩
      let standard := ofText text ⟨.standard, images, name⟩
      extended.program.map Program.code = standard.program.map Program.code ∧
        extended.report = standard.report ∧ extended.binding = standard.binding := by
  have h := Script.parse_extended hlines hread
  refine ⟨h ▸ hread, by rw [h], fun images name => ?_⟩
  obtain ⟨-, hbinding, -, hreport, hcode⟩ := ofText_of_parse_eq h images name
  exact ⟨hcode, hreport, hbinding⟩

/-- Declarations, a choice over several lines and a comment. -/
def choiceByLines : String :=
  "images \x7b\n  src = read;\n\x7d\n\nif (src > 1) \x7b\n  a = 1;\n\x7d\nelse a = 2; // or two\ndest = a;\n"

theorem choiceByLines_suits_both :
    Script.LinesClosed (Token.scan choiceByLines).tokens ∧
    (Script.parse choiceByLines .standard).diagnostics = [] ∧
    (Script.parse choiceByLines .standard).script.items.length = 3 ∧
    (Script.parse choiceByLines .extended).script =
      (Script.parse choiceByLines .standard).script := by
  obtain ⟨hlines, hread, hitems⟩ : Script.LinesClosed (Token.scan choiceByLines).tokens ∧
      (Script.parse choiceByLines .standard).diagnostics = [] ∧
      (Script.parse choiceByLines .standard).script.items.length = 3 := by decide +kernel
  exact ⟨hlines, hread, hitems,
    (closed_lines_suit_both_dialects choiceByLines hlines hread).2.1⟩

end RasterScript.Compilation
