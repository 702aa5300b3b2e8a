import RasterScript.Proofs.Compilation.Meaning
import RasterScript.Proofs.Machine.Checked
import RasterScript.Session

/-! Compiled programs cannot go wrong in the machine: their code refers only to what there is, and
no break gets out of a loop. -/
namespace RasterScript

/-! ### Images by name -/

theorem Direct.Declared.disjoint_names {d : Declared} {r s : Role} (h : (d.map (·.1)).Nodup)
    (hne : r ≠ s) : (d.names r).Disjoint (d.names s) := by
  intro n hr hs
  obtain ⟨p, hp, rfl⟩ := List.mem_map.mp hr
  obtain ⟨q, hq, hname⟩ := List.mem_map.mp hs
  obtain ⟨hp, hprole⟩ := List.mem_filter.mp hp
  obtain ⟨hq, hqrole⟩ := List.mem_filter.mp hq
  obtain rfl := List.inj_on_of_nodup_map h hq hp hname
  exact hne ((of_decide_eq_true hprole).symm.trans (of_decide_eq_true hqrole))

namespace Session

variable {names : List String} {image : String} {i : Nat}

theorem imageIndex_of_getElem? (hnodup : names.Nodup) (hi : names[i]? = some image) :
    imageIndex names image = .ok i := by
  obtain ⟨hlt, rfl⟩ := List.getElem?_eq_some_iff.mp hi
  have hindex : names.findIdx? (· = names[i]) = some i := by
    refine List.findIdx?_eq_some_iff_getElem.mpr ⟨hlt, decide_eq_true rfl, fun j hj => ?_⟩
    simpa using fun heq => Nat.ne_of_lt hj (hnodup.getElem_inj_iff.mp heq)
  rw [imageIndex, hindex]

theorem imageIndex_of_not_mem (h : image ∉ names) :
    imageIndex names image = .error (.unknownImage image) := by
  have hnone : names.findIdx? (· = image) = none :=
    List.findIdx?_eq_none_iff.mpr fun n hn => decide_eq_false fun heq => h (heq ▸ hn)
  rw [imageIndex, hnone]

end Session

namespace Code.WellFormed

variable {c : Code} (h : c.WellFormed)
include h

theorem disjoint_images : c.sources.Disjoint c.destinations := (List.nodup_append'.mp h.images).2.2

/-- A source is bound by its name at its number, and is no destination. -/
theorem bind_source {s : Session} (hs : s.code = c) {i : Nat} {name : String}
    (hi : c.sources[i]? = some name) (bound : BoundRaster) :
    s.bindSource name bound = .ok { s with sources := s.sources.set i (some bound) } ∧
      s.bindDestination name bound = .error (.unknownImage name) := by
  have hindex := Session.imageIndex_of_getElem? (List.nodup_append'.mp h.images).1 hi
  have hother := Session.imageIndex_of_not_mem fun hd =>
    h.disjoint_images (List.mem_of_getElem? hi) hd
  subst hs
  constructor
  · rw [Session.bindSource, hindex]
    rfl
  · rw [Session.bindDestination, hother]
    rfl

theorem bind_destination {s : Session} (hs : s.code = c) {i : Nat} {name : String}
    (hi : c.destinations[i]? = some name) (bound : BoundRaster) :
    s.bindDestination name bound =
        .ok { s with destinations := s.destinations.set i (some bound) } ∧
      s.bindSource name bound = .error (.unknownImage name) := by
  have hindex := Session.imageIndex_of_getElem? (List.nodup_append'.mp h.images).2.1 hi
  have hother := Session.imageIndex_of_not_mem fun hs =>
    h.disjoint_images hs (List.mem_of_getElem? hi)
  subst hs
  constructor
  · rw [Session.bindDestination, hindex]
    rfl
  · rw [Session.bindSource, hother]
    rfl

theorem init_placed : stmtsPlaced false c.init := by
  have hstores := h.init
  generalize c.init = ss at hstores
  induction ss with
  | nil => rfl
  | cons s ss ih =>
    obtain ⟨hs, hss⟩ := List.forall_mem_cons.mp hstores
    rw [stmtsPlaced, ih hss, Bool.and_true]
    unfold Stmt.setsImage at hs
    split at hs
    · rfl
    · cases hs

end Code.WellFormed

/-! ### Runs -/

/-- Where breaks stand in loops, statements that do not stop the run are followed by the next. -/
theorem Machine.execAll_reaches {limit : Nat} {env : Environment} {before after : List Code.Stmt}
    (hplaced : Code.stmtsPlaced false (before ++ after)) (m : Memory) :
    (∃ n, execAll limit env before m = (n, .next) ∧
        execAll limit env (before ++ after) m = execAll limit env after n) ∨
      ∃ n halt, execAll limit env before m = (n, .stop halt) := by
  rw [Code.stmtsPlaced_append, Bool.and_eq_true] at hplaced
  have hleave : (execAll limit env before m).2 ≠ .leave := execAll_ne_leave before m hplaced.1
  rw [Code.execAll_append]
  revert hleave
  obtain ⟨n, how⟩ := execAll limit env before m
  intro hleave
  cases how with
  | next => exact .inl ⟨n, rfl, rfl⟩
  | leave => exact absurd rfl hleave
  | stop halt => exact .inr ⟨n, halt, rfl⟩

namespace Compilation

variable {text : String} {options : Options} {p : Program}

theorem wellFormed_program (h : (ofText text options).program = some p) : p.code.WellFormed := by
  have hclean := (clean_of_program h).1
  have hbound := hclean.binding
  obtain ⟨L, hcode, -⟩ := codeOf_program h
  have hnodup := hbound.good.wf.nodup_declared
  have hordered := (Script.parse_inOrder text options.dialect).ordered
  rw [← hbound.declared] at hcode
  refine hcode.wellFormed (fun u hu => ?_) ?_
  · exact Code.permitted_of_proper hbound.good.wf
      (Binding.ofScript_proper _ _ hordered hclean.bound u hu)
  · exact List.nodup_append'.mpr ⟨Direct.Declared.nodup_names hnodup _,
      Direct.Declared.nodup_names hnodup _, Direct.Declared.disjoint_names hnodup (by decide)⟩

/-- The code of a program is well-formed, so images are bound by name at the numbers that the code
uses, no access of a run is out of range, and every statement at the top is run unless a failure
stops the run before. -/
theorem programs_run_safely (h : (ofText text options).program = some p) :
    p.code.WellFormed ∧
    (∀ (s : Session) (i : Nat) (name : String) (bound : BoundRaster), s.code = p.code →
      (p.code.sources[i]? = some name →
        s.bindSource name bound = .ok { s with sources := s.sources.set i (some bound) } ∧
          s.bindDestination name bound = .error (.unknownImage name)) ∧
      (p.code.destinations[i]? = some name →
        s.bindDestination name bound =
            .ok { s with destinations := s.destinations.set i (some bound) } ∧
          s.bindSource name bound = .error (.unknownImage name))) ∧
    ∀ (limit : Nat) (env : Environment) (values : List Float),
      values.length = p.code.imageSlots.length → ∀ statements ∈ [p.code.init, p.code.body],
        Checked.run limit p.code env values statements =
            some (Machine.run limit p.code env values statements) ∧
        (Machine.run limit p.code env values statements).imageValues.length =
          p.code.imageSlots.length ∧
        ∀ before after, statements = before ++ after →
          let start := Memory.fresh p.code values
          (∃ m, Machine.execAll limit env before start = (m, .next) ∧
              Machine.execAll limit env statements start = Machine.execAll limit env after m) ∨
            ∃ m halt, Machine.execAll limit env before start = (m, .stop halt) := by
  have hcode := wellFormed_program h
  refine ⟨hcode, fun s i name bound hs => ?_, fun limit env values hvalues statements hmem => ?_⟩
  · exact ⟨fun hi => hcode.bind_source hs hi bound, fun hi => hcode.bind_destination hs hi bound⟩
  · obtain ⟨hrefs, hplaced⟩ : Code.AllInRange p.code.sizes (Code.stmtsReferences statements) ∧
        Code.stmtsPlaced false statements := by
      rcases List.mem_pair.mp hmem with rfl | rfl
      · exact ⟨hcode.initInRange, hcode.init_placed⟩
      · exact ⟨hcode.bodyInRange, hcode.body⟩
    obtain ⟨hrun, hlength⟩ := Checked.run_eq p.code hrefs hvalues
    refine ⟨hrun, hlength, ?_⟩
    rintro before after rfl
    exact Machine.execAll_reaches hplaced _

/-- A loop over a list that is left at its second item; a write follows it. -/
def breakingLoop : String :=
  "init \x7b k = 2; \x7d\nvals = [k, src[0], 5];\nn = 0;\nforeach (v in vals) \x7b\n  breakif (v < 1);\n  n += v;\n\x7d\ndest = n;\n"

def readingSrc : Options := ⟨.standard, [("src", .source), ("dest", .destination)], none⟩

theorem breakingLoop_runs_safely :
    ∃ p, (ofText breakingLoop readingSrc).program = some p ∧ p.code.WellFormed ∧
      (∀ bound, (Session.start p.code).bindSource "src" bound =
        .ok { Session.start p.code with sources := [some bound] }) ∧
      Checked.run 0 p.code origin [2] p.code.body =
        some (Machine.run 0 p.code origin [2] p.code.body) ∧
      (Machine.run 0 p.code origin [2] p.code.body).outputs.toOption = some [some 2] := by
  obtain ⟨hclean, hsource, hkept, hdirect⟩ :
      Clean breakingLoop readingSrc ∧
      (Direct.Declared.ofScript (Script.parse breakingLoop readingSrc.dialect).script
        readingSrc.images).names .source = ["src"] ∧
      (Direct.Declared.ofScript (Script.parse breakingLoop readingSrc.dialect).script
        readingSrc.images).names .kept = ["k"] ∧
      originOutputs breakingLoop readingSrc ["k"] [2] = some (some [some 2]) := by decide +kernel
  obtain ⟨p, hprogram, -, hvalues, houtputs⟩ :=
    program_at_origin hclean hkept (Nat.le_refl 1) rfl hdirect
  obtain ⟨hcode, hbind, hrun⟩ := programs_run_safely hprogram
  obtain ⟨L, hlayout, -⟩ := codeOf_program hprogram
  have hsources : p.code.sources = ["src"] := hlayout.sources.trans hsource
  refine ⟨p, hprogram, hcode, fun bound => ?_, ?_, houtputs⟩
  · have hsrc := ((hbind (.start p.code) 0 "src" bound rfl).1 (by rw [hsources]; rfl)).1
    rwa [show (Session.start p.code).sources = [none] by rw [Session.start, hsources]; rfl] at hsrc
  · exact (hrun 0 origin [2] hvalues p.code.body (by simp)).1

end Compilation

end RasterScript
