import Mathlib
import RasterScript.Proofs.Code.Unambiguous
import RasterScript.Proofs.Compilation.Safety

/-! In the listing of a compiled script, the text of an expression determines the expression. -/
namespace RasterScript.Compilation

variable {text : String} {options : Options} {p : Program}

/-- Two expressions over the slots and images of a compiled script, in its code or not, are the same
if they have the same text and all names in them are identifiers and no texts of numbers. -/
theorem exprText_determines (h : (ofText text options).program = some p) {e e' : Code.Expr}
    (he : p.code.Named e.references) (he' : p.code.Named e'.references)
    (htext : p.code.exprText e = p.code.exprText e') : e = e' := by
  have hsources : p.code.sources.Nodup := (List.nodup_append'.mp (wellFormed_program h).images).1
  have hnothing : Code.Ends [] := by rintro c ⟨⟩
  refine (Code.expr_determined hsources e he e' [] [] he' hnothing hnothing ?_).1
  rw [Code.exprChars, Code.exprChars, htext]

/-- A statistic of a list and of a sample next to the pixel. -/
def neighbourMean : String :=
  "init \x7b k = 2; \x7d\ndest = mean([src[1], k], -src[$1, 0]);\n"

def neighbourMeanCode : Code.Expr :=
  .statistic .mean [
    .many (.literal [.read 0 (some (.const 1)) none, .load (.image 0)]),
    .one (.unary .neg (.read 0 none (some ⟨⟨true, .const 1⟩, ⟨false, .const 0⟩⟩)))]

theorem neighbourMean_determined :
    ∃ p, (ofText neighbourMean readingSrc).program = some p ∧
      p.code.exprText neighbourMeanCode = "mean([src[1], k@i0], (-src[$1, 0]))" ∧
      p.code.Named neighbourMeanCode.references ∧
      ∀ e, p.code.Named e.references →
        p.code.exprText e = "mean([src[1], k@i0], (-src[$1, 0]))" → neighbourMeanCode = e := by
  obtain ⟨hclean, hsource, hkept⟩ :
      Clean neighbourMean readingSrc ∧
      (Direct.Declared.ofScript (Script.parse neighbourMean readingSrc.dialect).script
        readingSrc.images).names .source = ["src"] ∧
      (Direct.Declared.ofScript (Script.parse neighbourMean readingSrc.dialect).script
        readingSrc.images).names .kept = ["k"] := by decide +kernel
  obtain ⟨p, hprogram⟩ := hclean.program
  obtain ⟨L, hlayout, -⟩ := codeOf_program hprogram
  have hsources : p.code.sources = ["src"] := hlayout.sources.trans hsource
  have hslots : p.code.imageSlots = ["k"] := imageSlots_eq hprogram hkept (Nat.le_refl 1)
  have hsrc : p.code.sourceName 0 = "src" := by rw [Code.sourceName, hsources]; rfl
  have hk : Code.nameAt p.code.imageSlots 0 = "k" := by rw [hslots]; rfl
  have htext : p.code.exprText neighbourMeanCode = "mean([src[1], k@i0], (-src[$1, 0]))" := by
    simp only [neighbourMeanCode, Code.exprText, Code.argumentTexts, Code.argumentText,
      Code.itemsText, Code.exprTexts, Code.slotText, Code.bandText, Code.pointText,
      Code.placesText, Code.placeText, hsrc, hk]
    decide +kernel
  have hnamed : p.code.Named neighbourMeanCode.references := by
    have hsource : Code.IsName "src" :=
      Code.isName_of_chars (by decide) (by decide) (by decide) (by decide)
    have hslot : Code.IsName "k" :=
      Code.isName_of_chars (by decide) (by decide) (by decide) (by decide)
    show p.code.Named [.source 0, .slot (.image 0), .source 0]
    simp only [Code.named_cons, Code.name?, hsrc, hk, Option.some_inj, forall_eq']
    exact ⟨hsource, hslot, hsource, List.forall_mem_nil _⟩
  exact ⟨p, hprogram, htext, hnamed, fun e he heq =>
    exprText_determines hprogram hnamed he (htext.trans heq.symm)⟩

end RasterScript.Compilation
