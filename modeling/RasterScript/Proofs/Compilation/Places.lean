import RasterScript.Compilation
import RasterScript.Proofs.Code.Reports
import RasterScript.Proofs.Script.Placement

/-! The places in a text that a compile works with: those of the script that it reads, of the names
that it binds, and of all that it reports. -/
namespace RasterScript

/-- A span of whole characters of a text, or an empty one between them. -/
def Span.InText (span : Span) (text : String) : Prop := ∃ w, span.Spells text w

/-- A script whose parts have their places in a text as they were written. -/
structure Script.Placed (text : String) (script : Script) : Prop where
  /-- No part is empty. -/
  covers : ∀ p ∈ Part.allOf script.parts, ∃ w, w ≠ "" ∧ p.span.Spells text w
  /-- A part encloses all parts inside it. -/
  encloses : ∀ p ∈ Part.allOf script.parts, ∀ q ∈ p.all, p.span.Encloses q.span
  /-- The items, and the parts of every part, are disjoint and in the order of the text. -/
  items : (script.parts.map Part.span).Pairwise Span.Precedes
  siblings : ∀ p ∈ Part.allOf script.parts, (p.parts.map Part.span).Pairwise Span.Precedes
  spelled : ∀ id ∈ Part.identsOf script.parts, id.span.Spells text id.name
  distinct : ((Part.identsOf script.parts).map Ident.span).Nodup

/-- The places under which names and calls are noted. -/
def Binding.keys (b : Binding) : List Span := b.names.map Prod.fst ++ b.calls.map Prod.fst

section Texts

variable (text : String) (dialect : Dialect)

theorem Script.parse_placed : (parse text dialect).script.Placed text := by
  obtain ⟨hfits, hordered⟩ := parse_fits text dialect
  have hall (q : Part) (hq : q ∈ Part.allOf (parse text dialect).script.parts) : q.Fits text := by
    obtain ⟨p, hp, hq⟩ := Part.mem_allOf.mp hq
    exact ((hfits p hp).inside hq).1
  exact
    { covers := fun p hp => (hall p hp).spells
      encloses := fun p hp q hq => ((hall p hp).inside hq).2
      items := hordered
      siblings := fun p hp => (hall p hp).parts_ordered
      spelled := fun id hid => by
        obtain ⟨p, hp, hid⟩ := List.mem_filterMap.mp hid
        exact (hall p hp).ident hid
      distinct := by
        have hnames := (parse_inOrder text dialect).nodup
        rwa [← Script.places_parts] at hnames }

/-- All parts of a script that was read stand in the text. -/
theorem Script.parse_held :
    Part.Held (fun span => span.InText text) (parse text dialect).script.parts := by
  intro p hp
  obtain ⟨w, -, hw⟩ := (parse_placed text dialect).covers p hp
  exact ⟨w, hw⟩

end Texts

namespace Binding

variable (script : Script) (images : List (String × ImageRole))

/-- A place is noted at most as often as the script has a name there. -/
theorem count_keys (p : Span) :
    (ofScript script images).1.keys.count p ≤ (Part.places script.parts).count p := by
  rw [Script.places_parts]
  exact (walk_keeping script images .initial).places p

theorem keys_nodup (h : (Part.places script.parts).Nodup) :
    (ofScript script images).1.keys.Nodup :=
  List.nodup_iff_count.mpr fun p =>
    Nat.le_trans (count_keys script images p) (List.nodup_iff_count.mp h p)

theorem keys_subset : (ofScript script images).1.keys ⊆ Part.places script.parts := by
  intro p hp
  have hcount := List.count_pos_iff.mpr hp
  exact List.count_pos_iff.mp (Nat.lt_of_lt_of_le hcount (count_keys script images p))

end Binding

namespace Compilation

section Appended

variable {text : String} {script : Script}
  (h : Part.Held (fun span => span.InText text) script.parts)
include h

private theorem bind_appends (hstart : script.span.start = 0) (images : List (String × ImageRole))
    (r : Report) :
    ∀ d ∈ (bind script images r).2.entries, d ∈ r.entries ∨ d.span.InText text := by
  intro d hd
  have hzero : (Span.point 0).InText text := ⟨"", "", text, by simp, rfl⟩
  rcases List.mem_append.mp hd with hd | hd
  · exact .inl hd
  · obtain ⟨f, hf, rfl⟩ := List.mem_map.mp hd
    exact .inr (Binding.ofScript_faults h hzero (hstart ▸ hzero) images f hf)

private theorem lower_appends (b : Binding) (r : Report) :
    ∀ d ∈ (lower script b r).2.entries, d ∈ r.entries ∨ d.span.InText text := by
  intro d hd
  rw [lower] at hd
  split at hd
  · exact .inl hd
  · next faults hfaults =>
    rcases List.mem_append.mp hd with hd | hd
    · exact .inl hd
    · obtain ⟨f, hf, rfl⟩ := List.mem_map.mp hd
      exact .inr (Code.ofScript_faults h hfaults f hf)

end Appended

/-- The parts of a script have the places at which they were written, no two names share one, so
what is noted by place is noted for one name only, and all that the three steps of a compile report
is about places in the text. -/
theorem places_well_formed (text : String) (dialect : Dialect) :
    let parsed := Script.parse text dialect
    parsed.script.Placed text ∧
      (∀ images, (Binding.ofScript parsed.script images).1.keys.Nodup ∧
        (Binding.ofScript parsed.script images).1.keys ⊆
          (Part.identsOf parsed.script.parts).map Ident.span) ∧
      (∀ d ∈ parsed.diagnostics, d.span.InText text) ∧
      (∀ images r, ∀ d ∈ (bind parsed.script images r).2.entries,
        d ∈ r.entries ∨ d.span.InText text) ∧
      ∀ b r, ∀ d ∈ (lower parsed.script b r).2.entries, d ∈ r.entries ∨ d.span.InText text := by
  have hplaced := Script.parse_placed text dialect
  have hheld := Script.parse_held text dialect
  refine ⟨hplaced, fun images => ⟨?_, ?_⟩, fun d hd => Script.parse_diagnostics hd, ?_, ?_⟩
  · exact Binding.keys_nodup _ images hplaced.distinct
  · exact Binding.keys_subset _ images
  · exact bind_appends hheld rfl
  · exact lower_appends hheld

/-- A comment with a character of two bytes, and a line that ends with the text. No name in it is
defined. -/
def accented : String := "// n\u00e9\ndest = (k + 2) * k"

theorem accented_well_formed :
    let script := (Script.parse accented .extended).script
    (Part.allOf script.parts).map Part.span = [⟨7, 25⟩, ⟨7, 11⟩, ⟨14, 25⟩, ⟨14, 21⟩, ⟨15, 16⟩,
      ⟨15, 16⟩, ⟨19, 20⟩, ⟨24, 25⟩, ⟨24, 25⟩] ∧ script.Placed accented ∧
    let reported := (bind script [] (.empty accented)).2.entries
    reported.map Diagnostic.span = [⟨15, 16⟩, ⟨24, 25⟩, ⟨0, 0⟩] ∧
      ∀ d ∈ reported, d.span.InText accented := by
  obtain ⟨hplaced, -, -, hbind, -⟩ := places_well_formed accented .extended
  refine ⟨by decide +kernel, hplaced, by decide +kernel, fun d hd => ?_⟩
  exact (hbind [] (.empty accented) d hd).resolve_left (List.not_mem_nil)

/-- Everything that a compile reports is about a place in the text. -/
theorem report_inText (text : String) (options : Options) :
    ∀ d ∈ (ofText text options).report.entries, d.span.InText text := by
  have hheld := Script.parse_held text options.dialect
  have hread : ∀ d ∈ ((Report.empty text).append
      (Script.parse text options.dialect).diagnostics).entries, d.span.InText text :=
    fun d hd => Script.parse_diagnostics hd
  unfold ofText
  dsimp only
  generalize (Report.empty text).append (Script.parse text options.dialect).diagnostics = r
    at hread ⊢
  have hbound (d : Diagnostic)
      (hd : d ∈ (bind (Script.parse text options.dialect).script options.images r).2.entries) :
      d.span.InText text :=
    (bind_appends hheld rfl options.images r d hd).elim (hread d) id
  generalize bind (Script.parse text options.dialect).script options.images r = bound
    at hbound ⊢
  obtain ⟨b, r⟩ := bound
  have hlowered (d : Diagnostic)
      (hd : d ∈ (lower (Script.parse text options.dialect).script b r).2.entries) :
      d.span.InText text :=
    (lower_appends hheld b r d hd).elim (hbound d) id
  generalize lower (Script.parse text options.dialect).script b r = lowered at hlowered ⊢
  obtain ⟨code, r⟩ := lowered
  split
  · exact hread
  · split
    · exact hbound
    · exact hlowered

end Compilation

end RasterScript
