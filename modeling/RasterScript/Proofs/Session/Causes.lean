import RasterScript.Proofs.Code.Needs
import RasterScript.Proofs.Session.Ends
import RasterScript.Proofs.Session.Memoryless
import RasterScript.Proofs.Session.Words

/-! Why an evaluation fails. Every failure goes back to something that the script needs and the
session does not give: a source, a band, a position inside, or bounds. -/
namespace RasterScript

/-! ### The value of reads outside -/

/-- Whether an item sets the value of reads outside an image. -/
def Item.setsOutside : Item → Bool
  | .options values _ => values.any fun v => v.ident.name = "outside"
  | _ => false

def Script.setsOutside (script : Script) : Bool := script.items.any Item.setsOutside

theorem Code.outside_ofScript {script : Script} {b : Binding} {c : Code}
    (h : ofScript script b = .ok c) : c.outside = b.outside := by
  simp only [ofScript] at h
  split at h
  split at h
  · cases h
    rfl
  · cases h

theorem Binding.Bound.outside {script : Script} {images : List (String × ImageRole)} {b : Binding}
    (h : Bound script images b) (hset : script.setsOutside) : b.outside.isSome := by
  obtain ⟨i, hi, hset⟩ := List.any_eq_true.mp hset
  have hoptions := h.options i hi
  cases i with
  | options values span =>
    obtain ⟨v, hv, -⟩ := List.any_eq_true.mp hset
    exact hoptions v hv
  | images decls span => cases hset
  | init values span => cases hset
  | stmt s => cases hset

namespace Session

variable {s : Session} {g : Gallery}

variable {text : String} {options : Options} {p : Program}

/-- What a session sees depends on its code by the names of sources and the value outside only. -/
theorem environmentIn_of_code {t : Session} (w : Words)
    (hsources : t.code.sources = s.code.sources) (houtside : t.code.outside = s.code.outside)
    (hbound : t.sources = s.sources) (hbounds : t.bounds = s.bounds) :
    t.environmentIn w g = s.environmentIn w g := by
  funext x y
  have hname : t.code.sourceName = s.code.sourceName := by
    funext i
    rw [Code.sourceName, Code.sourceName, hsources]
  have hsample : t.sampleSourceIn w g = s.sampleSourceIn w g := by
    funext i band x y
    simp only [sampleSourceIn, sourceBand, orOutside, hname, houtside, hbound]
  rw [environmentIn, environmentIn, hsample, hbounds]

open Compilation (readingSrc)

/-- A session after its first pixel, with a bound source and bounds. -/
def ready (c : Code) : Session :=
  { start c with sources := [some ⟨0, .identity⟩], bounds := some (.sized 2 1), initialised := true }

/-- What such a session with one source sees, if reads outside give -1. -/
def seen (w : Words) (g : Gallery) : Float → Float → Environment :=
  (ready ⟨["src"], [], [], [], [], [], [], some (-1)⟩).environmentIn w g

/-- What a direct run of a script without image variables writes. -/
def written (text : String) (env : Environment) (limit : Nat) :
    Option (Except Halt (List (Option Float))) :=
  let script := (Script.parse text readingSrc.dialect).script
  let w : Direct.Setting :=
    ⟨Direct.Declared.ofScript script readingSrc.images, .constants, env, limit⟩
  (Direct.run w [] [] (Direct.execBody w script.items)).map (·.outputs)

/-- Whether an access with a band is demanded. -/
def isBanded : Demand String → Bool
  | .sample _ banded => banded
  | _ => false

/-- A script without errors, image variables and bands, with a source and the value -1 outside. -/
@[mk_iff]
structure Plain (text : String) : Prop where
  clean : Compilation.Clean text readingSrc
  kept : (Direct.Declared.ofScript (Script.parse text readingSrc.dialect).script
    readingSrc.images).names .kept = []
  source : (Direct.Declared.ofScript (Script.parse text readingSrc.dialect).script
    readingSrc.images).names .source = ["src"]
  sets : (Script.parse text readingSrc.dialect).script.setsOutside
  outside : (Binding.ofScript (Script.parse text readingSrc.dialect).script
    readingSrc.images).1.outside = some (-1)
  unbanded : ∀ d ∈ (Script.parse text readingSrc.dialect).script.needs, isBanded d = false

instance (text : String) : Decidable (Plain text) := decidable_of_iff' _ (plain_iff text)

/-- Its program writes what the script does. -/
theorem Plain.program {text : String} (h : Plain text) :
    ∃ p, (Compilation.ofText text readingSrc).program = some p ∧ p.code.sources = ["src"] ∧
      ∀ w g x y limit, written text (seen w g x y) limit =
        some (Machine.run limit p.code ((ready p.code).environmentIn w g x y)
          (ready p.code).imageValues p.code.body).outputs := by
  obtain ⟨p, hprogram⟩ := h.clean.program
  obtain ⟨L, hcoded, -⟩ := Compilation.codeOf_program hprogram
  obtain ⟨-, hcode⟩ := Compilation.clean_of_program hprogram
  have hsources : p.code.sources = ["src"] := hcoded.sources.trans h.source
  have houtside : p.code.outside = some (-1) := (Code.outside_ofScript hcode).trans h.outside
  have hslots : p.code.imageSlots = [] := Compilation.imageSlots_eq hprogram h.kept (Nat.zero_le 1)
  refine ⟨p, hprogram, hsources, fun w g x y limit => ?_⟩
  have hseen : (ready p.code).environmentIn w g = seen w g :=
    environmentIn_of_code w hsources houtside rfl rfl
  have hvalues : (ready p.code).imageValues = [] := by
    rw [ready, start, hslots]
    rfl
  have hfirst : Direct.Precedence.constants ≠ .scopes := by rintro ⟨⟩
  have hrun := @Compilation.run_body_eq _ _ _ hprogram _ .constants (seen w g x y) limit [] rfl
    (congrArg List.length hslots.symm) fun h => absurd h hfirst
  rw [hslots] at hrun
  simp only [written]
  rw [hrun, hseen, hvalues, Option.map_some]

end Session

end RasterScript
