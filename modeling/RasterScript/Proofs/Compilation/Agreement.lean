import RasterScript.Compilation
import RasterScript.Proofs.Code.Emission

/-! Binding and lowering agree: a script that was read and bound without an error has code, and the
lowering finds nothing to report. -/
namespace RasterScript.Compilation

theorem hasErrors_eq_false_iff (r : Report) :
    r.hasErrors = false ↔ ∀ d ∈ r.entries, d.level ≠ .error := by
  simp [Report.hasErrors, Diagnostic.isError]

private theorem hasErrors_iff (r : Report) :
    r.hasErrors = true ↔ ∃ d ∈ r.entries, d.level = .error := by
  simp [Report.hasErrors, Diagnostic.isError]

/-- Every syntax fault is an error. -/
theorem parse_names_nodup_of_clean {text : String} {dialect : Dialect}
    (h : ∀ d ∈ (Script.parse text dialect).diagnostics, d.level ≠ .error) :
    (Script.parse text dialect).script.names.Nodup := by
  refine Script.parse_names_nodup ((Script.syntaxError_iff text dialect).mpr ?_)
  rw [List.eq_nil_iff_forall_not_mem]
  intro f hf
  refine h (Script.Fault.diagnostic f) ?_ rfl
  exact List.mem_append_right _ (List.mem_map_of_mem hf)

/-- A text that is read and bound without an error. -/
structure Clean (text : String) (options : Options) : Prop where
  read : ∀ d ∈ (Script.parse text options.dialect).diagnostics, d.level ≠ .error
  bound : ∀ f ∈ (Binding.ofScript (Script.parse text options.dialect).script options.images).2,
    f.what.level ≠ .error

instance (text : String) (options : Options) : Decidable (Clean text options) :=
  have hclean : ((∀ d ∈ (Script.parse text options.dialect).diagnostics, d.level ≠ .error) ∧
      ∀ f ∈ (Binding.ofScript (Script.parse text options.dialect).script options.images).2,
        f.what.level ≠ .error) ↔ Clean text options :=
    ⟨fun ⟨read, bound⟩ => ⟨read, bound⟩, fun h => ⟨h.read, h.bound⟩⟩
  decidable_of_decidable_of_iff hclean

theorem Clean.binding {text : String} {options : Options} (h : Clean text options) :
    Binding.Bound (Script.parse text options.dialect).script options.images
      (Binding.ofScript (Script.parse text options.dialect).script options.images).1 :=
  Binding.ofScript_bound _ _ (parse_names_nodup_of_clean h.read) h.bound

private theorem parse_code_ne {text : String} {dialect : Dialect} :
    ∀ d ∈ (Script.parse text dialect).diagnostics, d.code ≠ some "E0900" := by
  simp only [Script.parse, List.forall_mem_append, List.forall_mem_map]
  refine ⟨fun f _ => ?_, fun f _ => by simp [Script.Fault.diagnostic]⟩
  simp only [Token.Fault.diagnostic, ne_eq, Option.some.injEq]
  cases f.what <;> simp [Token.Fault.code]

private theorem fault_code_ne (f : Located Binding.Fault) :
    (Binding.Fault.diagnostic f).code ≠ some "E0900" := by
  simp only [Binding.Fault.diagnostic, ne_eq, Option.some.injEq]
  cases f.what <;> simp [Binding.Fault.code]

section OfText

variable {text : String} {options : Options}

/-- All that reading and binding report. -/
def reports (text : String) (options : Options) : List Diagnostic :=
  (Script.parse text options.dialect).diagnostics ++
    (Binding.ofScript (Script.parse text options.dialect).script options.images).2.map
      Binding.Fault.diagnostic

theorem clean_iff : Clean text options ↔ ∀ d ∈ reports text options, d.level ≠ .error := by
  rw [reports, List.forall_mem_append, List.forall_mem_map]
  exact ⟨fun h => ⟨h.read, h.bound⟩, fun h => ⟨h.1, h.2⟩⟩

theorem bind_fst (script : Script) (images : List (String × ImageRole)) (r : Report) :
    (bind script images r).1 = (Binding.ofScript script images).1 := rfl

private theorem bind_entries (script : Script) (images : List (String × ImageRole)) (r : Report) :
    (bind script images r).2.entries =
      r.entries ++ (Binding.ofScript script images).2.map Binding.Fault.diagnostic := rfl

theorem append_entries (text : String) (ds : List Diagnostic) :
    ((Report.empty text).append ds).entries = ds := rfl

/-- A clean text gets the code that the lowering makes of it. -/
theorem ofText_of_clean (h : Clean text options) :
    ∃ code, Code.ofScript (Script.parse text options.dialect).script
        (Binding.ofScript (Script.parse text options.dialect).script options.images).1 = .ok code ∧
      (ofText text options).program =
        some ⟨code, .ofText text options.dialect, options.displayName⟩ ∧
      (ofText text options).report.entries = reports text options := by
  obtain ⟨-, code, -, hcode, -⟩ := Code.ofScript_eq_ok h.binding
  have hclean := clean_iff.mp h
  have hread := h.read
  rw [reports] at hclean ⊢
  unfold ofText
  generalize Script.parse text options.dialect = parsed at hcode hclean hread ⊢
  have hno : ((Report.empty text).append parsed.diagnostics).hasErrors = false := by
    rw [hasErrors_eq_false_iff, append_entries]
    exact hread
  have hnone : (bind parsed.script options.images
      ((Report.empty text).append parsed.diagnostics)).2.hasErrors = false := by
    rw [hasErrors_eq_false_iff, bind_entries, append_entries]
    exact hclean
  refine ⟨code, hcode, ?_⟩
  simp only [hno, hnone, Bool.false_eq_true, if_false, bind_fst, lower, hcode]
  simp [bind_entries, append_entries]

/-- An error ends the compile, and it is in the report. -/
theorem ofText_of_not_clean (h : ¬Clean text options) :
    (ofText text options).program = none ∧
      (ofText text options).report.entries <+: reports text options ∧
      ∃ d ∈ (ofText text options).report.entries, d.level = .error := by
  rw [clean_iff] at h
  unfold reports at h ⊢
  unfold ofText
  generalize Script.parse text options.dialect = parsed at h ⊢
  simp only []
  split
  · next herror => exact ⟨rfl, List.prefix_append _ _, (hasErrors_iff _).mp herror⟩
  · split
    · next herror => exact ⟨rfl, List.prefix_refl _, (hasErrors_iff _).mp herror⟩
    · next hno =>
      rw [Bool.not_eq_true, hasErrors_eq_false_iff, bind_entries, append_entries] at hno
      exact absurd hno h

private theorem reports_code_ne : ∀ d ∈ reports text options, d.code ≠ some "E0900" := by
  rw [reports, List.forall_mem_append, List.forall_mem_map]
  exact ⟨parse_code_ne, fun f _ => fault_code_ne f⟩

/-- If reading and binding report no error, then the lowering gives code and reports nothing. So a
compile gives a program if and only if it reports no error, and never an internal one. -/
theorem lowering_agrees (text : String) (options : Options) :
    let script := (Script.parse text options.dialect).script
    let bound := Binding.ofScript script options.images
    ((∀ d ∈ (Script.parse text options.dialect).diagnostics, d.level ≠ .error) →
      (∀ f ∈ bound.2, f.what.level ≠ .error) →
        ∃ code, ∀ r, lower script bound.1 r = (some code, r)) ∧
    ((ofText text options).program.isSome ↔
      ∀ d ∈ (ofText text options).report.entries, d.level ≠ .error) ∧
    ∀ d ∈ (ofText text options).report.entries, d.code ≠ some "E0900" := by
  intro script bound
  by_cases h : Clean text options
  · obtain ⟨code, hcode, hprogram, hentries⟩ := ofText_of_clean h
    refine ⟨fun _ _ => ⟨code, fun r => ?_⟩, ?_, ?_⟩
    · rw [lower, hcode]
    · rw [hprogram, hentries]
      exact iff_of_true rfl (clean_iff.mp h)
    · rw [hentries]
      exact reports_code_ne
  · obtain ⟨hprogram, hentries, d, hd, herror⟩ := ofText_of_not_clean h
    refine ⟨fun hread hbound => absurd ⟨hread, hbound⟩ h, ?_, ?_⟩
    · rw [hprogram]
      exact iff_of_false (by simp) fun hno => hno d hd herror
    · exact fun d hd => reports_code_ne d (hentries.subset hd)

end OfText

end RasterScript.Compilation
