import RasterScript.Proofs.Compilation.Safety
import RasterScript.Proofs.Machine.Finish

/-! Programs without conditional loops always finish. They are the programs of scripts without
`while` and `until`. -/
namespace RasterScript

open Machine (Event Outcome FinishesAll)

/-! ### Scripts without conditional loops -/

namespace Stmt

mutual

/-- Whether there is no conditional loop in a statement. -/
def loopless : Stmt → Bool
  | .assign _ _ _ _ | .breakIf _ _ | .leave _ => true
  | .cond _ yes no _ => yes.loopless && otherLoopless no
  | .loop _ _ _ _ => false
  | .foreach _ _ body _ => body.loopless
  | .block body _ => allLoopless body

def otherLoopless : Option Stmt → Bool
  | none => true
  | some s => s.loopless

def allLoopless : List Stmt → Bool
  | [] => true
  | s :: ss => s.loopless && allLoopless ss

end

end Stmt

def Item.loopless : Item → Bool
  | .stmt s => s.loopless
  | .images _ _ | .init _ _ | .options _ _ => true

namespace Code

variable {D : Direct.Declared} {L : Layout}

private theorem stmtsLoopless_append (ss ts : List Stmt) :
    stmtsLoopless (ss ++ ts) = (stmtsLoopless ss && stmtsLoopless ts) := by
  induction ss with
  | nil => rw [List.nil_append, stmtsLoopless, Bool.true_and]
  | cons s ss ih => rw [List.cons_append, stmtsLoopless, stmtsLoopless, ih, Bool.and_assoc]

theorem CodedAssign.loopless {ls : LoopSlots} {target : Ident} {op : AssignOp}
    {value : RasterScript.Expr} {c : Stmt} (h : CodedAssign D L ls target op value c) :
    c.loopless := by
  cases h <;> rfl

mutual

/-- A statement has a conditional loop if and only if its code has one. -/
theorem CodedStmt.loopless_eq : ∀ {ls s cs}, CodedStmt D L ls s cs → stmtsLoopless cs = s.loopless
  | _, _, _, .assign _ _ h => by
    rw [stmtsLoopless, stmtsLoopless, h.loopless, RasterScript.Stmt.loopless, Bool.and_true]
  | _, _, _, .cond _ hyes hno => by
    rw [stmtsLoopless, stmtsLoopless, Stmt.loopless, RasterScript.Stmt.loopless, hyes.loopless_eq,
      hno.loopless_eq, Bool.and_true]
  | _, _, _, .loop _ _ => rfl
  | _, _, _, .foreachItem _ _ hbody => by
    rw [stmtsLoopless, stmtsLoopless, Stmt.loopless, RasterScript.Stmt.loopless,
      hbody.loopless_eq, Bool.and_true]
  | _, _, _, .foreachInt _ _ _ hbody => by
    rw [stmtsLoopless, stmtsLoopless, Stmt.loopless, RasterScript.Stmt.loopless,
      hbody.loopless_eq, Bool.and_true]
  | _, _, _, .block hbody => by rw [RasterScript.Stmt.loopless, hbody.loopless_eq]
  | _, _, _, .breakIf _ => rfl
  | _, _, _, .leave => rfl

theorem CodedElse.loopless_eq : ∀ {ls s cs}, CodedElse D L ls s cs →
    stmtsLoopless cs = RasterScript.Stmt.otherLoopless s
  | _, _, _, .none => rfl
  | _, _, _, .some h => by rw [RasterScript.Stmt.otherLoopless, h.loopless_eq]

theorem CodedStmts.loopless_eq : ∀ {ls ss cs}, CodedStmts D L ls ss cs →
    stmtsLoopless cs = RasterScript.Stmt.allLoopless ss
  | _, _, _, .nil => rfl
  | _, _, _, .cons hs hss => by
    rw [stmtsLoopless_append, RasterScript.Stmt.allLoopless, hs.loopless_eq, hss.loopless_eq]

end

theorem CodedValues.loopless {values : List NamedValue} {cs : List Stmt}
    (h : CodedValues D L values cs) : stmtsLoopless cs := by
  induction h with
  | nil => rfl
  | cons _ _ _ _ _ ih => rw [stmtsLoopless, ih, Stmt.loopless, Bool.and_true]

theorem CodedInit.loopless {items : List Item} {cs : List Stmt} (h : CodedInit D L items cs) :
    stmtsLoopless cs := by
  induction h with
  | nil => rfl
  | init hvalues _ ih => rw [stmtsLoopless_append, hvalues.loopless, ih, Bool.and_true]
  | images _ ih | options _ ih | stmt _ ih => exact ih

theorem CodedBody.loopless_eq {items : List Item} {cs : List Stmt} (h : CodedBody D L items cs) :
    stmtsLoopless cs = items.all Item.loopless := by
  induction h with
  | nil => rfl
  | stmt hs _ ih => rw [stmtsLoopless_append, List.all_cons, hs.loopless_eq, ih, Item.loopless]
  | images _ ih | options _ ih | init _ ih => rw [ih, List.all_cons, Item.loopless, Bool.true_and]

theorem CodeOf.loopless_eq {script : Script} {c : Code} (h : CodeOf D L script c) :
    c.loopless = script.items.all Item.loopless := by
  rw [loopless, h.init.loopless, h.body.loopless_eq, Bool.true_and]

end Code

/-! ### Runs -/

namespace Machine

variable {limit : Nat} {c : Code} {env : Environment} {values : List Float}
  {statements : List Code.Stmt} {r : Memory × Outcome}

/-- A run that does not run out of rounds comes to its end or fails. -/
theorem run_proper (h : execAll limit env statements (.fresh c values) = r) (hr : Proper r) :
    (∃ outputs, (run limit c env values statements).outputs = .ok outputs) ∨
      ∃ f, (run limit c env values statements).outputs = .error (.failed f) := by
  obtain ⟨m, how⟩ := r
  rw [run, h]
  cases how with
  | next => exact .inl ⟨m.outputs, rfl⟩
  | leave => exact .inl ⟨m.outputs, rfl⟩
  | stop halt =>
    cases halt with
    | failed f => exact .inr ⟨f, rfl⟩
    | exhausted => exact absurd rfl hr

theorem run_of_execAll_eq {other : Nat}
    (h : execAll limit env statements (.fresh c values) =
      execAll other env statements (.fresh c values)) :
    run limit c env values statements = run other c env values statements := by
  rw [run, run, h]

end Machine

namespace Compilation

variable {text : String} {options : Options} {p : Program}

/-- A program without conditional loops finishes in every environment and from all image values,
whatever the limit on rounds: its run comes to its end or fails, and no access is out of range. In
a finished run no loop begins more rounds than the list had items when it was entered, or than there
are integers between the bounds cut to 64 bits, and no list is longer than the longest literal. -/
theorem loopless_programs_finish (h : (ofText text options).program = some p)
    (hloops : p.code.loopless) (env : Environment) (values : List Float)
    (statements : List Code.Stmt) (hmem : statements ∈ [p.code.init, p.code.body]) :
    let start := Memory.fresh p.code values
    ∃ result : Machine.Result,
      ((∃ outputs, result.outputs = .ok outputs) ∨ ∃ f, result.outputs = .error (.failed f)) ∧
      (∀ limit, Machine.run limit p.code env values statements = result) ∧
      (values.length = p.code.imageSlots.length →
        ∀ limit, Checked.run limit p.code env values statements = some result) ∧
      (∃ events r, FinishesAll env statements start events r) ∧
      ∀ events r, FinishesAll env statements start events r →
        (∀ limit, Machine.execAll limit env statements start = r) ∧
        ∀ e ∈ events, e.Within p.code.longestLiteral := by
  have hloopless : Code.stmtsLoopless statements := by
    obtain ⟨hinit, hbody⟩ := (Bool.and_eq_true _ _).mp hloops
    rcases List.mem_pair.mp hmem with rfl | rfl
    · exact hinit
    · exact hbody
  have hlimit : ∀ limit, Machine.run limit p.code env values statements =
      Machine.run 0 p.code env values statements := fun limit =>
    Machine.run_of_execAll_eq (congrFun (Machine.execAll_limit statements hloopless) _)
  have hproper : Machine.Proper (Machine.execAll 0 env statements (.fresh p.code values)) :=
    Machine.execAll_proper statements hloopless _
  refine ⟨Machine.run 0 p.code env values statements, ?_, hlimit, ?_, ?_, ?_⟩
  · exact Machine.run_proper rfl hproper
  · intro hvalues limit
    have hcode := wellFormed_program h
    have hrefs : Code.AllInRange p.code.sizes (Code.stmtsReferences statements) := by
      rcases List.mem_pair.mp hmem with rfl | rfl
      · exact hcode.initInRange
      · exact hcode.bodyInRange
    rw [← hlimit limit]
    exact (Checked.run_eq p.code hrefs hvalues).1
  · obtain ⟨events, hevents⟩ := Machine.execAll_finishes statements _ hproper
    exact ⟨events, _, hevents⟩
  · intro events r hrun
    refine ⟨fun limit => hrun.execAll_eq hloopless, ?_⟩
    have hliterals := p.code.length_le_longestLiteral hmem
    exact (hrun.within hliterals (.fresh p.code values)).events

/-- A list that is replaced while a loop runs over it, bounds beyond the integers that doubles tell
apart, infinite or no numbers. -/
def unusualBounds : String :=
  "v = [1, 2];\nn = 0;\nforeach (i in v) \x7b v = [i]; n += 1; \x7d\nforeach (i in 9007199254740993:9007199254740996) n += 8;\nforeach (i in 1 / 0:1 / 0) n += 64;\nforeach (i in 0 / 0:5) n = 0;\ndest = n;\n"

theorem unusualBounds_finish :
    ∃ p, (ofText unusualBounds toDest).program = some p ∧ p.code.loopless ∧
      ∃ result : Machine.Result,
        (∀ limit, Checked.run limit p.code origin [] p.code.body = some result) ∧
        result.outputs.toOption = some [some 106] ∧
        ∃ events r, FinishesAll origin p.code.body (.fresh p.code []) events r ∧
          ∀ e ∈ events, e.Within p.code.longestLiteral := by
  obtain ⟨hclean, hscript, hkept, hdirect⟩ :
      Clean unusualBounds toDest ∧
      (Script.parse unusualBounds toDest.dialect).script.items.all Item.loopless = true ∧
      (Direct.Declared.ofScript (Script.parse unusualBounds toDest.dialect).script
        toDest.images).names .kept = [] ∧
      originOutputs unusualBounds toDest [] [] = some (some [some 106]) := by decide +kernel
  obtain ⟨p, hprogram, -, hvalues, houtputs⟩ :=
    program_at_origin hclean hkept (Nat.zero_le 1) rfl hdirect
  obtain ⟨L, hcode, -⟩ := codeOf_program hprogram
  have hloops : p.code.loopless := hcode.loopless_eq.trans hscript
  obtain ⟨result, -, hlimit, hchecked, ⟨events, r, hrun⟩, hbounded⟩ :=
    loopless_programs_finish hprogram hloops origin [] p.code.body (by simp)
  refine ⟨p, hprogram, hloops, result, hchecked hvalues, ?_, events, r, hrun,
    (hbounded events r hrun).2⟩
  rw [← hlimit 0]
  exact houtputs

end Compilation

end RasterScript
