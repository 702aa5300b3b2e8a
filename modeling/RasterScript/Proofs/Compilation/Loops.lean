import RasterScript.Proofs.Code.Loops
import RasterScript.Proofs.Compilation.Meaning

/-! The loop variables of a compiled program belong to their loops, in the code and in every run. -/
namespace RasterScript.Compilation

open Code (LoopsOwn stmtsHeaders stmtsStores stmtsReads stmtsHeaders_append stmtsStores_append
  stmtsReads_append)
open Machine (Guarded Holding allMoments allMoments_hold allMoments_read)

variable {text : String} {options : Options} {p : Program}

section Programs

variable (h : (ofText text options).program = some p)
include h

private theorem nodup_headers_program : (stmtsHeaders p.code.body).Nodup := by
  obtain ⟨hclean, hcode⟩ := clean_of_program h
  exact Code.nodup_headers hclean.binding hcode (Binding.ofScript_opened _ _ hclean.bound)
    (parse_names_nodup_of_clean hclean.read)

/-- The slots in the headers of loops are pixel slots. -/
theorem headers_pixel : ∀ slot ∈ stmtsHeaders p.code.body,
    ∃ i < p.code.pixelSlots.length, slot = .pixel i := by
  obtain ⟨L, hlayout, -⟩ := codeOf_program h
  intro slot hslot
  obtain ⟨i, hi, rfl, -⟩ := hlayout.body.owned.headers slot hslot
  exact ⟨i, hlayout.pixelSlots ▸ hi, rfl⟩

private theorem loopsOwn_program : LoopsOwn (p.code.init ++ p.code.body) := by
  obtain ⟨L, hlayout, -⟩ := codeOf_program h
  obtain ⟨hinit, hnone⟩ := hlayout.init.owned
  have hbody := hlayout.body.owned
  have hheaders : stmtsHeaders (p.code.init ++ p.code.body) = stmtsHeaders p.code.body := by
    rw [stmtsHeaders_append, hnone, List.nil_append]
  refine ⟨?_, fun slot hslot hstored => ?_, fun slot hslot around hread => ?_⟩
  · rw [hheaders]
    exact nodup_headers_program h
  · rw [hheaders] at hslot
    obtain ⟨n, hn⟩ := (hinit.append hbody).stores slot hstored
    exact hn.not_apart (hbody.headers slot hslot)
  · rw [hheaders] at hslot
    rcases (hinit.append hbody).reads _ hread with ⟨n, hn⟩ | hmem
    · exact absurd (hbody.headers slot hslot) hn.not_apart
    · exact hmem

/-- The slot in the header of a loop over values belongs to that loop: it is in no other header,
nothing is stored to it, and it is loaded only in the body of the loop. So whenever a run evaluates
something, the slot of every loop around it holds the value of the loop's round among the values
that the loop was entered with, and the slot of a loop is loaded only in its rounds. -/
theorem loop_variables_keep_values :
    LoopsOwn (p.code.init ++ p.code.body) ∧
    ∀ (limit : Nat) (env : Environment) (values : List Float),
      ∀ statements ∈ [p.code.init, p.code.body],
        ∀ m ∈ allMoments limit env statements [] (.fresh p.code values),
          (∀ r ∈ m.rounds, r.values[r.index]? = some (m.memory.load r.slot)) ∧
          ∀ slot ∈ stmtsHeaders (p.code.init ++ p.code.body), .slot slot ∈ m.refers →
            ∃ r ∈ m.rounds, r.slot = slot := by
  have hown := loopsOwn_program h
  refine ⟨hown, fun limit env values statements hstatements m hm => ⟨?_, ?_⟩⟩
  · have hpixel := headers_pixel h
    obtain ⟨L, hlayout, -⟩ := codeOf_program h
    have hguarded : Guarded p.code.pixelSlots.length [] (stmtsStores statements)
        (stmtsHeaders statements) := by
      have hboth : Guarded p.code.pixelSlots.length []
          (stmtsStores p.code.init ++ stmtsStores p.code.body)
          (stmtsHeaders p.code.init ++ stmtsHeaders p.code.body) := by
        rw [← stmtsStores_append, ← stmtsHeaders_append]
        refine ⟨hown.headers, hown.stores, ?_, fun _ h => nomatch h⟩
        rwa [stmtsHeaders_append, hlayout.init.owned.2, List.nil_append]
      rcases List.mem_pair.mp hstatements with rfl | rfl
      · exact hboth.left
      · exact hboth.right
    exact allMoments_hold statements [] hguarded _ ⟨List.length_replicate, fun _ h => nomatch h⟩ m hm
  · intro slot hslot hrefers
    have hread := allMoments_read statements [] _ m hm _ hrefers
    have hin : (m.rounds.map Machine.Round.slot, .slot slot) ∈
        stmtsReads [] (p.code.init ++ p.code.body) := by
      rw [stmtsReads_append]
      rcases List.mem_pair.mp hstatements with rfl | rfl
      · exact List.mem_append_left _ hread
      · exact List.mem_append_right _ hread
    exact List.mem_map.mp (hown.loads slot hslot _ hin)

end Programs

/-- Loops with one name inside each other; the list that the outer one runs over is assigned in its
body, and the inner one is left early. -/
def reassignedList : String :=
  "vals = [1, 2];\nn = 0;\nforeach (v in vals) \x7b\n  vals = [v, 7, 9];\n  foreach (v in 3:5) \x7b breakif (v > 4); n += v; \x7d\n  n += v;\n\x7d\ndest = n;\n"

theorem reassignedList_keeps_values :
    ∃ p, (ofText reassignedList toDest).program = some p ∧
      (stmtsHeaders p.code.body).length = 2 ∧ LoopsOwn (p.code.init ++ p.code.body) ∧
      (∀ m ∈ allMoments 0 origin p.code.body [] (.fresh p.code []),
        ∀ r ∈ m.rounds, r.values[r.index]? = some (m.memory.load r.slot)) ∧
      (Machine.run 0 p.code origin [] p.code.body).outputs.toOption = some [some 17] := by
  obtain ⟨hclean, hvars, hkept, hdirect⟩ :
      Clean reassignedList toDest ∧
      (Script.parse reassignedList toDest.dialect).script.loopVars.length = 2 ∧
      (Direct.Declared.ofScript (Script.parse reassignedList toDest.dialect).script
        toDest.images).names .kept = [] ∧
      originOutputs reassignedList toDest [] [] = some (some [some 17]) := by decide +kernel
  obtain ⟨p, hprogram, -, -, houtputs⟩ :=
    program_at_origin hclean hkept (Nat.zero_le 1) rfl hdirect
  obtain ⟨hown, hmoments⟩ := loop_variables_keep_values hprogram
  refine ⟨p, hprogram, ?_, hown, fun m hm => (hmoments 0 origin [] _ (by simp) m hm).1, houtputs⟩
  obtain ⟨S, -, hheaders⟩ := Code.ofScript_headers hclean.binding (clean_of_program hprogram).2
  rw [← List.Forall₂.length_eq hheaders]
  exact hvars

end RasterScript.Compilation
