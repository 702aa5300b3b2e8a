import RasterScript.Binding.Analysis
import RasterScript.Code.Lowering
import RasterScript.Provenance
import RasterScript.Script.Parse

/-! Compiling a text: it is read, its names are bound, and code is made of it. A step that reports
an error is the last one. -/
namespace RasterScript

structure Options where
  dialect : Dialect
  /-- The images that the caller brings, in order. -/
  images : List (String × ImageRole)
  displayName : Option String

inductive Phase where
  | reading
  | binding
  | lowering
deriving DecidableEq, Repr

def Phase.name : Phase → String
  | reading => "parse"
  | binding => "resolve"
  | lowering => "codegen"

/-- A step that was taken, and what had been reported by its end. -/
structure PhaseSummary where
  phase : Phase
  errors : Nat
  warnings : Nat
deriving DecidableEq, Repr

def PhaseSummary.ofReport (phase : Phase) (r : Report) : PhaseSummary :=
  ⟨phase, r.errorCount, r.warningCount⟩

/-- A script that was compiled without an error. -/
structure Program where
  code : Code
  provenance : Provenance
  displayName : Option String

structure Compilation where
  phases : List PhaseSummary
  script : Script
  /-- Only if the text could be read without an error. -/
  binding : Option Binding
  report : Report
  program : Option Program

namespace Compilation

def bind (script : Script) (images : List (String × ImageRole)) (r : Report) : Binding × Report :=
  let (b, faults) := Binding.ofScript script images
  (b, r.append (faults.map Binding.Fault.diagnostic))

def lower (script : Script) (b : Binding) (r : Report) : Option Code × Report :=
  match Code.ofScript script b with
  | .ok c => (some c, r)
  | .error faults => (none, r.append (faults.map Code.Fault.diagnostic))

def ofText (text : String) (options : Options) : Compilation :=
  let parsed := Script.parse text options.dialect
  let r := (Report.empty text).append parsed.diagnostics
  let read := PhaseSummary.ofReport .reading r
  if r.hasErrors then ⟨[read], parsed.script, none, r, none⟩
  else
    let (b, r) := bind parsed.script options.images r
    let bound := PhaseSummary.ofReport .binding r
    if r.hasErrors then ⟨[read, bound], parsed.script, some b, r, none⟩
    else
      let (code, r) := lower parsed.script b r
      let program := (code.filter fun _ => !r.hasErrors).map fun c =>
        ⟨c, .ofText text options.dialect, options.displayName⟩
      ⟨[read, bound, .ofReport .lowering r], parsed.script, some b, r, program⟩

/-- Take all steps, whatever they report. -/
def allSteps (text : String) (options : Options) : Option Code × Report :=
  let parsed := Script.parse text options.dialect
  let (b, r) := bind parsed.script options.images ((Report.empty text).append parsed.diagnostics)
  lower parsed.script b r

def isSuccess (c : Compilation) : Bool := c.program.isSome

end Compilation

end RasterScript
