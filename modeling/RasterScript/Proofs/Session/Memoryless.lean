import RasterScript.Proofs.Compilation.Loops
import RasterScript.Proofs.Compilation.Safety
import RasterScript.Proofs.Session.Outputs

/-! Direct evaluation without memory. If the code of a pixel stores to no image slot, then what an
evaluation gives does not depend on the evaluations before it. -/
namespace RasterScript

/-! ### Image values -/

namespace Machine

variable {limit : Nat} {env : Environment}

private theorem run_imageValues (c : Code) (values : List Float) (ss : List Code.Stmt) :
    (run limit c env values ss).imageValues =
      (execAll limit env ss (.fresh c values)).1.imageValues := by
  rw [run]
  obtain ⟨m, how⟩ := execAll limit env ss (.fresh c values)
  cases how <;> rfl

/-- A run that puts nothing into image slots leaves the image values as they were. -/
theorem run_keeps_imageValues {ss : List Code.Stmt} (hstores : ∀ i, .image i ∉ Code.stmtsStores ss)
    (hheaders : ∀ i, .image i ∉ Code.stmtsHeaders ss) (c : Code) (values : List Float) :
    (run limit c env values ss).imageValues = values := by
  have hunaffected : Memory.Unaffected (fun slot => ∃ i, slot = .pixel i)
      (fun m => m.imageValues = values) := by
    refine ⟨?_, fun _ _ hm => hm, fun _ _ hm => hm⟩
    rintro _ ⟨i, rfl⟩ m v hm
    exact hm
  have hpixel {slots : List Code.Slot} (h : ∀ i, .image i ∉ slots) :
      ∀ slot ∈ slots, ∃ i, slot = .pixel i := by
    intro slot hslot
    cases slot with
    | image i => exact absurd hslot (h i)
    | pixel i => exact ⟨i, rfl⟩
  rw [run_imageValues]
  exact execAll_keeps hunaffected ss (hpixel hstores) (hpixel hheaders) _ rfl

end Machine

/-! ### Assigned names -/

mutual

/-- The names that a statement assigns to. -/
def Stmt.targets : Stmt → List String
  | .assign target _ _ _ => [target.name]
  | .cond _ yes no _ => yes.targets ++ elseTargets no
  | .loop _ _ body _ => body.targets
  | .foreach _ _ body _ => body.targets
  | .block body _ => stmtsTargets body
  | .breakIf _ _ => []
  | .leave _ => []

def elseTargets : Option Stmt → List String
  | none => []
  | some s => s.targets

def stmtsTargets : List Stmt → List String
  | [] => []
  | s :: ss => s.targets ++ stmtsTargets ss

end

def Item.targets : Item → List String
  | .stmt s => s.targets
  | _ => []

namespace Code

open Direct (Declared)

/-- Image slots are stored to only for names of image variables. -/
def StoresKept (D : Declared) (names : List String) (slots : List Slot) : Prop :=
  ∀ i, .image i ∈ slots → ∃ n ∈ names, D.lookup n = some .kept

section Targets

variable {D : Declared} {L : Layout} {names more : List String} {slots others : List Slot}

theorem StoresKept.nil : StoresKept D names [] := fun _ h => nomatch h

theorem StoresKept.append (hn : StoresKept D names slots) (hm : StoresKept D more others) :
    StoresKept D (names ++ more) (slots ++ others) := by
  intro i hi
  rcases List.mem_append.mp hi with hi | hi
  · obtain ⟨n, hn, hkept⟩ := hn i hi
    exact ⟨n, List.mem_append_left _ hn, hkept⟩
  · obtain ⟨n, hm, hkept⟩ := hm i hi
    exact ⟨n, List.mem_append_right _ hm, hkept⟩

theorem CodedAssign.storesKept {ls : LoopSlots} {target : Ident} {op : AssignOp}
    {value : RasterScript.Expr} {c : Stmt} (h : CodedAssign D L ls target op value c) :
    StoresKept D [target.name] c.stores := by
  cases h with
  | store hv =>
    intro i hi
    obtain rfl := List.mem_singleton.mp hi
    cases hv with
    | image hkept => exact ⟨_, List.mem_singleton_self _, hkept⟩
  | storeList => exact .nil
  | write => exact .nil

mutual

theorem CodedStmt.storesKept : ∀ {ls s cs}, CodedStmt D L ls s cs →
    StoresKept D s.targets (stmtsStores cs)
  | _, _, _, .assign _ _ hc => by
    rw [stmtsStores_singleton]
    exact hc.storesKept
  | _, _, _, .cond _ hy hn => by
    rw [stmtsStores_singleton]
    exact hy.storesKept.append hn.storesKept
  | _, _, _, .loop _ hbody | _, _, _, .foreachItem _ _ hbody | _, _, _, .foreachInt _ _ _ hbody => by
    rw [stmtsStores_singleton]
    exact hbody.storesKept
  | _, _, _, .block hbody => hbody.storesKept
  | _, _, _, .breakIf _ => .nil
  | _, _, _, .leave => .nil

theorem CodedElse.storesKept : ∀ {ls s cs}, CodedElse D L ls s cs →
    StoresKept D (elseTargets s) (stmtsStores cs)
  | _, _, _, .none => .nil
  | _, _, _, .some hs => hs.storesKept

theorem CodedStmts.storesKept : ∀ {ls ss cs}, CodedStmts D L ls ss cs →
    StoresKept D (stmtsTargets ss) (stmtsStores cs)
  | _, _, _, .nil => .nil
  | _, _, _, .cons hs hss => by
    rw [stmtsStores_append]
    exact hs.storesKept.append hss.storesKept

end

theorem CodedBody.storesKept {items : List Item} {cs : List Stmt} (h : CodedBody D L items cs) :
    StoresKept D (items.flatMap Item.targets) (stmtsStores cs) := by
  induction h with
  | nil => exact .nil
  | stmt hs _ ih =>
    rw [stmtsStores_append]
    exact hs.storesKept.append ih
  | images _ ih => exact ih
  | options _ ih => exact ih
  | init _ ih => exact ih

end Targets

end Code

/-- The code of a pixel stores to no image slot if the script assigns no image variable. -/
theorem Compilation.stores_no_image {text : String} {options : Options} {p : Program}
    (h : (ofText text options).program = some p)
    (htargets : ∀ n ∈ (Script.parse text options.dialect).script.items.flatMap Item.targets,
      (Direct.Declared.ofScript (Script.parse text options.dialect).script options.images).lookup n ≠
        some .kept) :
    ∀ i, .image i ∉ Code.stmtsStores p.code.body := by
  obtain ⟨L, hlayout, -⟩ := codeOf_program h
  intro i hi
  obtain ⟨n, hn, hkept⟩ := hlayout.body.storesKept i hi
  exact htargets n hn hkept

/-! ### Evaluations in turn -/

namespace Session

/-- Evaluate positions in turn, whatever comes of it. -/
def after (limit : Nat) (s : Session) (g : Gallery) (history : List (Float × Float)) : Session :=
  history.foldl (fun t position => (t.evaluate limit g position.1 position.2).1) s

/-- What evaluations make of a session that was not initialised: it still is not, or it is as its
`init` code left it. -/
inductive Resumed (limit : Nat) (g : Gallery) (s : Session) : Session → Prop where
  | unready (values : List Float) : Resumed limit g s { s with imageValues := values }
  | ready {t} : s.runInit limit g = (t, .ok ()) → Resumed limit g s t

section Resumed

variable {limit : Nat} {g : Gallery} {s t : Session}

theorem runInit_initialised (h : s.runInit limit g = (t, .ok ())) :
    t.initialised = true ∧ t.code = s.code := by
  simp only [runInit, initialise] at h
  split at h
  · cases h
    exact ⟨rfl, rfl⟩
  · cases h

private theorem runInit_failed {halt : Halt} (h : s.runInit limit g = (t, .error halt)) :
    ∃ values, t = { s with imageValues := values } := by
  simp only [runInit, initialise] at h
  split at h
  · cases h
  · cases h
    exact ⟨_, rfl⟩

private theorem runPixel_fst (hstores : ∀ i, .image i ∉ Code.stmtsStores s.code.body)
    (hheaders : ∀ i, .image i ∉ Code.stmtsHeaders s.code.body) (x y : Float) :
    (s.runPixel limit g x y).1 = s := by
  show { s with imageValues := _ } = s
  rw [Machine.run_keeps_imageValues hstores hheaders]

variable (hs : s.initialised = false)
include hs

theorem evaluate_eq (x y : Float) :
    s.evaluate limit g x y =
      match s.runInit limit g with
      | (t, .ok _) => t.runPixel limit g x y
      | (t, .error halt) => (t, .error halt) := by
  rw [evaluate_runs, hs]
  rfl

/-- An evaluation gives what it would have given first. -/
theorem Resumed.evaluate_eq (h : Resumed limit g s t) (x y : Float) :
    t.evaluate limit g x y = s.evaluate limit g x y := by
  cases h with
  | unready values =>
    rw [Session.evaluate_eq hs, Session.evaluate_eq (s := { s with imageValues := values }) hs]
    rfl
  | ready h =>
    rw [Session.evaluate_eq hs, h, evaluate_runs, if_pos (runInit_initialised h).1]

variable (hstores : ∀ i, .image i ∉ Code.stmtsStores s.code.body)
  (hheaders : ∀ i, .image i ∉ Code.stmtsHeaders s.code.body)
include hstores hheaders

theorem Resumed.evaluate (h : Resumed limit g s t) (x y : Float) :
    Resumed limit g s (t.evaluate limit g x y).1 := by
  rw [h.evaluate_eq hs, Session.evaluate_eq hs]
  cases hinit : s.runInit limit g with
  | mk u result =>
    cases result with
    | ok _ =>
      obtain ⟨-, hcode⟩ := runInit_initialised hinit
      rw [← hcode] at hstores hheaders
      show Resumed limit g s (u.runPixel limit g x y).1
      rw [runPixel_fst hstores hheaders]
      exact .ready hinit
    | error halt =>
      obtain ⟨values, rfl⟩ := runInit_failed hinit
      exact .unready values

theorem Resumed.after (history : List (Float × Float)) (h : Resumed limit g s t) :
    Resumed limit g s (t.after limit g history) := by
  induction history generalizing t with
  | nil => exact h
  | cons position history ih => exact ih (h.evaluate hs hstores hheaders position.1 position.2)

end Resumed

variable {text : String} {options : Options} {p : Program}

/-- If the code of a pixel stores to no image slot, then an evaluation after any others, successful
or not, does what it would have done on a session with the same bindings and bounds before its first
evaluation. Whichever evaluation has run the `init` code, the image values are those that it gives. -/
theorem evaluations_leave_no_trace (h : (Compilation.ofText text options).program = some p)
    (hstores : ∀ i, .image i ∉ Code.stmtsStores p.code.body) (limit : Nat)
    (sources destinations : List (Option BoundRaster)) (bounds : Option Extent) (g : Gallery)
    (history : List (Float × Float)) :
    let fresh : Session :=
      { start p.code with sources := sources, destinations := destinations, bounds := bounds }
    (∀ x y, (fresh.after limit g history).evaluate limit g x y = fresh.evaluate limit g x y) ∧
    ((fresh.after limit g history).initialised = true →
      fresh.runInit limit g = (fresh.after limit g history, .ok ())) := by
  intro fresh
  have hheaders : ∀ i, .image i ∉ Code.stmtsHeaders p.code.body := by
    intro i hi
    obtain ⟨_, -, heq⟩ := Compilation.headers_pixel h _ hi
    cases heq
  have hresumed : Resumed limit g fresh (fresh.after limit g history) :=
    Resumed.after rfl hstores hheaders history (.unready fresh.imageValues)
  refine ⟨hresumed.evaluate_eq rfl, fun hready => ?_⟩
  generalize fresh.after limit g history = later at hresumed hready ⊢
  cases hresumed with
  | unready values => cases hready
  | ready h => exact h

/-- A script with an image variable that it never assigns. -/
def scaledSource : String := "init \x7b k = 2; \x7d\ndest = k * src;\n"

/-- The first of the evaluations before fails, outside of the source. -/
theorem scaledSource_leaves_no_trace :
    ∃ p, (Compilation.ofText scaledSource Compilation.readingSrc).program = some p ∧
      let g : Gallery := [.ofFunction (.sized 2 1) fun x _ => Float.ofInt x]
      let fresh : Session := { start p.code with sources := [some ⟨0, .identity⟩] }
      ∀ x y, (fresh.after 0 g [(5, 5), (1, 0)]).evaluate 0 g x y = fresh.evaluate 0 g x y := by
  have hclean : Compilation.Clean scaledSource Compilation.readingSrc := by decide +kernel
  obtain ⟨p, hprogram⟩ := hclean.program
  have hstores := Compilation.stores_no_image hprogram (by decide +kernel)
  exact ⟨p, hprogram,
    (evaluations_leave_no_trace hprogram hstores 0 [some ⟨0, .identity⟩] _ none _ _).1⟩

end Session

end RasterScript
