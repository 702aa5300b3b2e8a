import RasterScript.Proofs.Binding.Usage
import RasterScript.Proofs.Code.Images
import RasterScript.Proofs.Compilation.Safety

/-! Warnings about unused images tell the truth about the code: an image is reported if and only if
no part of the code reads or writes it. -/
namespace RasterScript

open Binding (imageKind warning?)
open Direct (Declared)

namespace Code

/-- The images of a role, by number. -/
def images (c : Code) : ImageRole → List String
  | .source => c.sources
  | .destination => c.destinations

/-- All that the code refers to. -/
def references (c : Code) : List Reference := stmtsReferences c.init ++ stmtsReferences c.body

/-- Whether the code reads or writes the image of a role and name. -/
def uses (c : Code) (role : ImageRole) (name : String) : Bool :=
  (c.images role).zipIdx.any fun (n, i) => n = name && c.references.contains (.image role i)

section Uses

variable {c : Code} {role : ImageRole} {name : String}

private theorem uses_iff :
    c.uses role name ↔ ∃ i : Nat, (c.images role)[i]? = some name ∧ .image role i ∈ c.references := by
  simp only [uses, List.any_eq_true, Bool.and_eq_true, decide_eq_true_eq, List.contains_iff_mem,
    Prod.exists, List.mem_zipIdx_iff_getElem?]
  constructor
  · rintro ⟨_, i, hi, rfl, hmem⟩
    exact ⟨i, hi, hmem⟩
  · rintro ⟨i, hi, hmem⟩
    exact ⟨name, i, hi, rfl, hmem⟩

/-- With different names, the image of a name is the one with its number. -/
theorem uses_iff_of_nodup (hnodup : (c.images role).Nodup) {i : Nat}
    (hi : (c.images role)[i]? = some name) :
    c.uses role name ↔ .image role i ∈ c.references := by
  rw [uses_iff]
  constructor
  · rintro ⟨j, hj, hmem⟩
    have hlt := (List.getElem?_eq_some_iff.mp hi).1
    rwa [(List.getElem?_inj hlt hnodup).mp (hi.trans hj.symm)]
  · intro hmem
    exact ⟨i, hi, hmem⟩

theorem CodeOf.images {D : Declared} {L : Layout} {script : Script} {code : Code}
    (h : CodeOf D L script code) (role : ImageRole) :
    code.images role = D.names (Declared.roleOf role) := by
  cases role with
  | source => exact h.sources
  | destination => exact h.destinations

/-- Code uses an image that is declared if and only if the script uses its name. -/
theorem uses_iff_mem_images {b : Binding} {L : Layout} {script : Script} {code : Code}
    (h : CodeOf b.table.declared L script code) (wf : SymbolTable.WellFormed b.table) {s : Symbol}
    (hs : s ∈ b.table.symbols) (hkind : s.kind = imageKind role) :
    code.uses role s.name ↔ (role, s.name) ∈ script.images := by
  rw [uses_iff, h.images]
  constructor
  · rintro ⟨i, hi, hmem⟩
    obtain ⟨n, hn, huse⟩ := (h.accounts role i).mp hmem
    rwa [← Option.some.inj (hn.getElem?.symm.trans hi)]
  · intro huse
    obtain ⟨i, -, hi⟩ := Slots.imageAt wf role hs hkind
    exact ⟨i, hi.getElem?, (h.accounts role i).mpr ⟨s.name, hi, huse⟩⟩

end Uses

end Code

/-! ### Lists of warnings -/

/-- What is reported of an image that is not used. -/
def Binding.Fault.unused : ImageRole → String → Binding.Fault
  | .source => .neverRead
  | .destination => .neverAssigned

/-- The code of that warning. -/
def warningCode : ImageRole → String
  | .source => "W0002"
  | .destination => "W0001"

private theorem code_unused (role : ImageRole) (name : String) :
    (Binding.Fault.unused role name).code = warningCode role := by
  cases role <;> rfl

private theorem warningCode_inj {role other : ImageRole}
    (h : warningCode role = warningCode other) : role = other := by
  cases role <;> cases other <;> simp_all [warningCode]

private theorem warning?_of_kind {used : ImageRole → Symbol → Bool} {role : ImageRole} {s : Symbol}
    (hkind : s.kind = imageKind role) :
    warning? used s =
      if used role s then none else some ⟨.unused role s.name, s.span⟩ := by
  cases role <;> simp only [warning?, hkind, imageKind] <;> rfl

/-- A warning is about the image that its code says. -/
theorem code_warning? {used : ImageRole → Symbol → Bool} {role : ImageRole} {s : Symbol}
    {f : Located Binding.Fault} (hf : warning? used s = some f)
    (hcode : f.what.code = warningCode role) : s.kind = imageKind role := by
  have himage (other : ImageRole) (hkind : s.kind = imageKind other) : role = other := by
    rw [warning?_of_kind hkind] at hf
    split at hf
    · cases hf
    · obtain rfl := Option.some.inj hf
      exact warningCode_inj (hcode.symm.trans (code_unused other s.name))
  cases hkind : s.kind with
  | sourceImage => rw [himage .source hkind]; rfl
  | destImage => rw [himage .destination hkind]; rfl
  | _ =>
    rw [warning?, hkind] at hf
    cases hf

/-- Items chosen by their number. -/
theorem map_filter_zipIdx {α : Type} {l : List α} {p : α → Bool} {q : Nat → Bool}
    (h : ∀ i a, l[i]? = some a → p a = q i) :
    (l.zipIdx.filter fun x => q x.2).map (·.1) = l.filter p := by
  have hcongr : (l.zipIdx.filter fun x => q x.2) = l.zipIdx.filter (p ∘ (·.1)) := by
    refine List.filter_congr fun x hx => ?_
    exact (h x.2 x.1 (List.mem_zipIdx_iff_getElem?.mp hx)).symm
  rw [hcongr, ← List.filter_map, List.zipIdx_map_fst]

/-- The images that the code does not use, by number and by name. -/
theorem unused_images {c : Code} {role : ImageRole} (hnodup : (c.images role).Nodup) :
    ((c.images role).zipIdx.filter fun x => .image role x.2 ∉ c.references).map (·.1) =
      (c.images role).filter fun n => !c.uses role n := by
  refine map_filter_zipIdx (q := fun i => decide (.image role i ∉ c.references)) fun i n hi => ?_
  rw [Bool.eq_iff_iff, Bool.not_eq_true', ← Bool.not_eq_true, Code.uses_iff_of_nodup hnodup hi,
    decide_eq_true_eq]

/-- The warnings of one code, by the symbols that they are about. -/
theorem filter_warnings (used : ImageRole → Symbol → Bool) (role : ImageRole)
    (symbols : List Symbol) :
    (((symbols.filterMap (warning? used)).map Binding.Fault.diagnostic).filter
        fun d => d.code = some (warningCode role)).map (·.message) =
      ((symbols.filter fun s => s.kind = imageKind role).filter fun s => !used role s).map
        fun s => (Binding.Fault.unused role s.name).message := by
  induction symbols with
  | nil => rfl
  | cons s symbols ih =>
    rw [List.filterMap_cons, List.filter_cons]
    by_cases hkind : s.kind = imageKind role
    · rw [warning?_of_kind hkind]
      cases hused : used role s with
      | true => simpa [hkind, hused] using ih
      | false => simpa [hkind, hused, Binding.Fault.diagnostic, code_unused] using ih
    · cases hw : warning? used s with
      | none => simpa [hkind] using ih
      | some f =>
        have hcode : f.what.code ≠ warningCode role := fun hcode => hkind (code_warning? hw hcode)
        simpa [hkind, Binding.Fault.diagnostic, hcode] using ih

namespace Compilation

variable {text : String} {options : Options} {p : Program}

/-- All that reading reports is an error. -/
theorem diagnostics_eq_nil {dialect : Dialect}
    (h : ∀ d ∈ (Script.parse text dialect).diagnostics, d.level ≠ .error) :
    (Script.parse text dialect).diagnostics = [] := by
  rw [List.eq_nil_iff_forall_not_mem]
  intro d hd
  refine h d hd ?_
  rw [Script.parse] at hd
  rcases List.mem_append.mp hd with hd | hd
  · obtain ⟨f, -, rfl⟩ := List.mem_map.mp hd
    rfl
  · obtain ⟨f, -, rfl⟩ := List.mem_map.mp hd
    rfl

private theorem binding_of_clean (h : Clean text options) :
    (ofText text options).binding =
      some (Binding.ofScript (Script.parse text options.dialect).script options.images).1 := by
  have hread := h.read
  unfold ofText
  generalize Script.parse text options.dialect = parsed at hread ⊢
  have hno : ((Report.empty text).append parsed.diagnostics).hasErrors = false := by
    rw [hasErrors_eq_false_iff, append_entries]
    exact hread
  simp only [hno, Bool.false_eq_true, if_false, bind_fst]
  split <;> rfl

/-- What a compile reports that gives a program: warnings about the images that the code neither
reads nor writes, once each and in the order of their declarations. So the sources with a warning
are those whose number occurs in no read, and the destinations those whose number occurs in no
write. -/
theorem unused_image_warnings (h : (ofText text options).program = some p) :
    ∃ b, (ofText text options).binding = some b ∧
      (∀ role, p.code.images role = (b.table.ofKind (imageKind role)).map Symbol.name ∧
        (p.code.images role).Nodup) ∧
      (ofText text options).report.entries =
        (b.table.symbols.filterMap (warning? fun role s => p.code.uses role s.name)).map
          Binding.Fault.diagnostic ∧
      ∀ role, ((ofText text options).report.entries.filter
          fun d => d.code = some (warningCode role)).map (·.message) =
        ((p.code.images role).zipIdx.filter fun x => .image role x.2 ∉ p.code.references).map
          fun x => (Binding.Fault.unused role x.1).message := by
  obtain ⟨hclean, -⟩ := clean_of_program h
  obtain ⟨-, -, -, hreport⟩ := ofText_of_clean hclean
  obtain ⟨L, hlayout, -⟩ := codeOf_program h
  have hbound := hclean.binding
  have wf := hbound.good.wf
  rw [← hbound.declared] at hlayout
  rw [reports, diagnostics_eq_nil hclean.read, List.nil_append,
    Binding.ofScript_warnings _ _ hclean.bound] at hreport
  refine ⟨_, binding_of_clean hclean, ?_⟩
  generalize (Binding.ofScript (Script.parse text options.dialect).script options.images).1 = b
    at hlayout wf hreport ⊢
  have himages (role : ImageRole) :
      p.code.images role = (b.table.ofKind (imageKind role)).map Symbol.name :=
    (hlayout.images role).trans (Code.Slots.names_images wf role)
  have hnodup (role : ImageRole) : (p.code.images role).Nodup := by
    rw [hlayout.images role]
    exact Direct.Declared.nodup_names wf.nodup_declared _
  have hentries : (ofText text options).report.entries =
      (b.table.symbols.filterMap (warning? fun role s => p.code.uses role s.name)).map
        Binding.Fault.diagnostic := by
    rw [hreport]
    refine congrArg _ (List.filterMap_congr fun s hs => ?_)
    refine Binding.warning?_congr fun role hkind => ?_
    rw [Bool.eq_iff_iff, List.contains_iff_mem, Code.uses_iff_mem_images hlayout wf hs hkind]
  refine ⟨fun role => ⟨himages role, hnodup role⟩, hentries, fun role => ?_⟩
  have hunused := congrArg (List.map fun n => (Binding.Fault.unused role n).message)
    (unused_images (hnodup role))
  rw [List.map_map] at hunused
  rw [hentries, filter_warnings]
  refine Eq.trans ?_ hunused.symm
  rw [himages role, List.filter_map, List.map_map]
  rfl

/-- A script that reads one source at a place given by another. The third source only shares its
name with the variable of a loop. -/
def hiddenSource : String := "foreach (hid in [1, 2]) \x7b\n  v = hid;\n\x7d\ndest = src[v, mask];\n"

def fiveImages : Options where
  dialect := .standard
  images := [("src", .source), ("mask", .source), ("hid", .source), ("dest", .destination),
    ("extra", .destination)]
  displayName := none

theorem hiddenSource_warnings :
    ∃ p, (ofText hiddenSource fiveImages).program = some p ∧
      (ofText hiddenSource fiveImages).report.entries.map (·.message) =
        ["source image 'hid' is never read", "destination image 'extra' is never assigned"] ∧
      (.source 0 ∈ p.code.references ∧ .source 1 ∈ p.code.references ∧
        .source 2 ∉ p.code.references) ∧
      .destination 0 ∈ p.code.references ∧ .destination 1 ∉ p.code.references := by
  obtain ⟨hreports, hread, hwritten⟩ : reports hiddenSource fiveImages =
      [⟨some "W0002", .warning, .point 0, "source image 'hid' is never read"⟩,
        ⟨some "W0001", .warning, .point 0, "destination image 'extra' is never assigned"⟩] ∧
      (Direct.Declared.ofScript (Script.parse hiddenSource fiveImages.dialect).script
        fiveImages.images).names .source = ["src", "mask", "hid"] ∧
      (Direct.Declared.ofScript (Script.parse hiddenSource fiveImages.dialect).script
        fiveImages.images).names .destination = ["dest", "extra"] := by decide +kernel
  have hclean : Clean hiddenSource fiveImages := by
    rw [clean_iff, hreports]
    decide
  obtain ⟨p, hprogram⟩ := hclean.program
  obtain ⟨-, -, -, hentries⟩ := ofText_of_clean hclean
  rw [hreports] at hentries
  obtain ⟨L, hlayout, -⟩ := codeOf_program hprogram
  have hsources : p.code.images .source = ["src", "mask", "hid"] := hlayout.sources.trans hread
  have hdestinations : p.code.images .destination = ["dest", "extra"] :=
    hlayout.destinations.trans hwritten
  obtain ⟨b, -, -, -, hwarnings⟩ := unused_image_warnings hprogram
  have hread := hwarnings .source
  have hwritten := hwarnings .destination
  rw [hentries, hsources] at hread
  rw [hentries, hdestinations] at hwritten
  refine ⟨p, hprogram, by rw [hentries]; rfl, ?_, ?_⟩
  · by_cases h0 : .source 0 ∈ p.code.references <;>
      by_cases h1 : .source 1 ∈ p.code.references <;>
      by_cases h2 : .source 2 ∈ p.code.references <;>
      simp [warningCode, Code.Reference.image, h0, h1, h2] at hread ⊢
    all_goals exact absurd hread (by decide)
  · by_cases h0 : .destination 0 ∈ p.code.references <;>
      by_cases h1 : .destination 1 ∈ p.code.references <;>
      simp [warningCode, Code.Reference.image, h0, h1] at hwritten ⊢
    exact absurd hwritten (by decide)

end Compilation

end RasterScript
