import RasterScript.Proofs.Code.Simulation
import RasterScript.Proofs.Compilation.Agreement

/-! The code of a script means what the script means: a run of the code gives what a direct run of
the tree gives. -/
namespace RasterScript

/-! ### Image variables -/

namespace Direct.Declared

variable {d : Declared} {name n : String} {role r : Role}

private theorem names_declare_of_ne (h : role ≠ r) : (d.declare name role).names r = d.names r := by
  rw [declare]
  split
  · rfl
  · simp [names, List.filter_append, h]

private theorem names_declare_subset : (d.declare name r).names r ⊆ d.names r ++ [name] := by
  rw [declare]
  split
  · exact List.subset_append_left _ _
  · simp [names, List.filter_append]

mutual

/-- Statements declare no image variables. -/
theorem kept_stmt : ∀ (s : Stmt) (d : Declared) (loops : List String),
    (d.stmt loops s).names .kept = d.names .kept
  | .assign target op value span, d, loops => by
    rw [stmt]
    split
    · exact names_declare_of_ne (by decide)
    · exact names_declare_of_ne (by decide)
  | .cond _ yes no _, d, loops => by rw [stmt, kept_other no, kept_stmt yes]
  | .loop _ _ body _, d, loops => by rw [stmt, kept_stmt body]
  | .foreach _ _ body _, d, loops => by rw [stmt, kept_stmt body]
  | .block body _, d, loops => by rw [stmt, kept_stmts body]
  | .breakIf _ _, d, loops => by rw [stmt]
  | .leave _, d, loops => by rw [stmt]

private theorem kept_other : ∀ (s : Option Stmt) (d : Declared) (loops : List String),
    (d.other loops s).names .kept = d.names .kept
  | none, d, loops => by rw [other]
  | some s, d, loops => by rw [other, kept_stmt s]

private theorem kept_stmts : ∀ (ss : List Stmt) (d : Declared) (loops : List String),
    (d.stmts loops ss).names .kept = d.names .kept
  | [], d, loops => by rw [stmts]
  | s :: ss, d, loops => by rw [stmts, kept_stmts ss, kept_stmt s]

end

private theorem kept_foldl {α : Type} {f : Declared → α → Declared}
    (h : ∀ d a, (f d a).names .kept = d.names .kept) (as : List α) (d : Declared) :
    (as.foldl f d).names .kept = d.names .kept := by
  induction as generalizing d with
  | nil => rfl
  | cons a as ih => rw [List.foldl_cons, ih, h]

private theorem kept_image (d : Declared) (i : String × ImageRole) :
    (d.image i).names .kept = d.names .kept := by
  refine names_declare_of_ne ?_
  cases i.2 <;> decide

private theorem kept_images (d : Declared) (i : Item) :
    (d.images i).names .kept = d.names .kept := by
  cases i with
  | images decls span => exact kept_foldl (fun d i => kept_image d _) decls d
  | _ => rfl

private theorem kept_statement (d : Declared) (i : Item) :
    (d.statement i).names .kept = d.names .kept := by
  cases i with
  | stmt s => exact kept_stmt s d []
  | _ => rfl

/-- The names in the `init` blocks of a script. -/
def initNames : Item → List String
  | .init values _ => values.map (·.ident.name)
  | _ => []

private theorem kept_values (values : List NamedValue) (d : Declared) :
    (values.foldl (fun d v => d.declare v.ident.name .kept) d).names .kept ⊆
      d.names .kept ++ values.map (·.ident.name) := by
  induction values generalizing d with
  | nil => simp
  | cons v vs ih =>
    intro n hn
    rcases List.mem_append.mp (ih _ hn) with hn | hn
    · have := names_declare_subset hn
      grind
    · grind

private theorem kept_inits (items : List Item) (d : Declared) :
    (items.foldl inits d).names .kept ⊆ d.names .kept ++ items.flatMap initNames := by
  induction items generalizing d with
  | nil => simp
  | cons i items ih =>
    have hstep : (d.inits i).names .kept ⊆ d.names .kept ++ initNames i := by
      cases i with
      | init values span => exact kept_values values d
      | _ => exact List.subset_append_left _ _
    intro n hn
    rw [List.flatMap_cons, ← List.append_assoc]
    rcases List.mem_append.mp (ih _ hn) with hn | hn
    · exact List.mem_append_left _ (hstep hn)
    · exact List.mem_append_right _ hn

theorem kept_ofScript (script : Script) (given : List (String × ImageRole)) :
    (ofScript script given).names .kept ⊆ script.items.flatMap initNames := by
  intro n hn
  rw [ofScript, kept_foldl kept_statement] at hn
  have := kept_inits _ _ hn
  rwa [kept_foldl kept_images, kept_foldl kept_image] at this

theorem mem_names (h : d.lookup n = some r) : n ∈ d.names r := by
  obtain ⟨before, after, hd, -⟩ := List.lookup_eq_some_iff.mp h
  exact List.mem_map.mpr ⟨(n, r), List.mem_filter.mpr ⟨by simp [hd], by simp⟩, rfl⟩

theorem nodup_names (h : (d.map (·.1)).Nodup) (r : Role) : (d.names r).Nodup :=
  h.sublist (List.filter_sublist.map _)

end Direct.Declared

namespace SymbolTable

variable {t : SymbolTable}

theorem WellFormed.nodup (h : WellFormed t) : t.symbols.Nodup := by
  have hids : t.symbols.map (·.id) = List.range t.symbols.length := by
    refine List.ext_getElem (by simp) fun i hi hi' => ?_
    rw [List.getElem_map, List.getElem_range]
    exact h.ids (List.getElem?_eq_getElem _)
  refine List.Nodup.of_map (·.id) ?_
  rw [hids]
  exact List.nodup_range

theorem WellFormed.nodup_declared (h : WellFormed t) : (t.declared.map (·.1)).Nodup := by
  rw [declared, List.map_map]
  refine (h.nodup.filter _).map_on fun r hr s hs hname => ?_
  obtain ⟨hr, hrglobal⟩ := List.mem_filter.mp hr
  obtain ⟨hs, hsglobal⟩ := List.mem_filter.mp hs
  exact h.apart r hr s hs hrglobal hsglobal hname

end SymbolTable

namespace Code

open Direct (Declared Role)

variable {D : Declared} {L : Layout}

theorem CodedValues.mem_image {values : List NamedValue} {cs : List Stmt}
    (h : CodedValues D L values cs) : values.map (·.ident.name) ⊆ L.image := by
  induction h with
  | nil => exact List.nil_subset _
  | cons _ _ hi _ _ ih => exact List.cons_subset.mpr ⟨List.mem_of_getElem? hi, ih⟩

theorem CodedInit.mem_image {items : List Item} {cs : List Stmt} (h : CodedInit D L items cs) :
    items.flatMap Declared.initNames ⊆ L.image := by
  induction h with
  | nil => exact List.nil_subset _
  | init hvalues _ ih => exact List.append_subset.mpr ⟨hvalues.mem_image, ih⟩
  | images _ ih => exact ih
  | options _ ih => exact ih
  | stmt _ ih => exact ih

theorem Slots.Ok.image_subset {b : Binding} {s : Slots} (ok : s.Ok b)
    (wf : SymbolTable.WellFormed b.table) :
    (s.layout b).image ⊆ b.table.declared.names .kept := by
  intro n hn
  obtain ⟨y, hy, rfl, hkind, hscope, -⟩ := ok.image hn
  refine Declared.mem_names ?_
  rw [SymbolTable.lookup_declared_of_mem wf hy
    (by simp [SymbolTable.isGlobal, hscope, SymbolTable.imageScope])]
  simp [SymbolTable.role, hkind, hscope]

end Code

namespace Compilation

variable {text : String} {options : Options} {p : Program}

theorem Clean.program (h : Clean text options) : ∃ p, (ofText text options).program = some p := by
  obtain ⟨code, -, hprogram, -⟩ := ofText_of_clean h
  exact ⟨_, hprogram⟩

/-- A program is the code of a clean text. -/
theorem clean_of_program (h : (ofText text options).program = some p) :
    Clean text options ∧ Code.ofScript (Script.parse text options.dialect).script
      (Binding.ofScript (Script.parse text options.dialect).script options.images).1 =
        .ok p.code := by
  by_cases hclean : Clean text options
  · obtain ⟨code, hcode, hprogram, -⟩ := ofText_of_clean hclean
    rw [h] at hprogram
    exact ⟨hclean, by rw [hcode, Option.some.inj hprogram]⟩
  · rw [(ofText_of_not_clean hclean).1] at h
    cases h

section Programs

variable (h : (ofText text options).program = some p)
include h

/-- The code of a program, with a place for every variable of the script. -/
theorem codeOf_program :
    ∃ L, Code.CodeOf (Direct.Declared.ofScript (Script.parse text options.dialect).script
        options.images) L (Script.parse text options.dialect).script p.code ∧
      L.image ⊆ (Direct.Declared.ofScript (Script.parse text options.dialect).script
        options.images).names .kept := by
  obtain ⟨hclean, hp⟩ := clean_of_program h
  have hbound := hclean.binding
  obtain ⟨s, code, ok, hok, hcode⟩ := Code.ofScript_eq_ok hbound
  obtain rfl : code = p.code := Except.ok.inj (hok.symm.trans hp)
  have hslots := ok.image_subset hbound.good.wf
  rw [hbound.declared] at hcode hslots
  exact ⟨_, hcode, hslots⟩

private theorem nodup_names_program (role : Direct.Role) :
    ((Direct.Declared.ofScript (Script.parse text options.dialect).script
      options.images).names role).Nodup := by
  have hbound := (clean_of_program h).1.binding
  rw [← hbound.declared]
  exact Direct.Declared.nodup_names hbound.good.wf.nodup_declared role

private theorem imageSlots_perm :
    p.code.imageSlots.Perm ((Direct.Declared.ofScript (Script.parse text options.dialect).script
      options.images).names .kept) := by
  obtain ⟨L, hcode, hslots⟩ := codeOf_program h
  rw [hcode.imageSlots]
  refine (List.perm_ext_iff_of_nodup hcode.separate.image (nodup_names_program h _)).mpr
    fun n => ⟨fun hn => hslots hn, fun hn => ?_⟩
  exact hcode.init.mem_image (Direct.Declared.kept_ofScript _ options.images hn)

/-- The image slots of a program are the image variables of its script; of several the order may be
another. -/
theorem imageSlots_eq {names : List String}
    (hkept : (Direct.Declared.ofScript (Script.parse text options.dialect).script
      options.images).names .kept = names) (hshort : names.length ≤ 1) :
    p.code.imageSlots = names := by
  have hperm := imageSlots_perm h
  rw [hkept] at hperm
  rcases names with _ | ⟨name, _ | ⟨other, names⟩⟩
  · exact hperm.eq_nil
  · exact List.perm_singleton.mp hperm
  · rw [List.length_cons, List.length_cons] at hshort
    omega

section Runs

variable {declared : Direct.Declared} {first : Direct.Precedence} {env : Environment} {limit : Nat}
  {values : List Float}
  (hdeclared : declared =
    Direct.Declared.ofScript (Script.parse text options.dialect).script options.images)
  (hlength : values.length = p.code.imageSlots.length)
  (hclear : first = .scopes →
    Direct.hiddenItems declared (Script.parse text options.dialect).script.items = [])
include hdeclared hlength hclear

theorem run_body_eq :
    Direct.run ⟨declared, first, env, limit⟩ p.code.imageSlots values
        (Direct.execBody ⟨declared, first, env, limit⟩
          (Script.parse text options.dialect).script.items) =
      some (Machine.run limit p.code env values p.code.body) := by
  obtain ⟨L, hcode, -⟩ := codeOf_program h
  have hdestinations := nodup_names_program h .destination
  rw [← hdeclared] at hcode hdestinations
  exact hcode.run_eq hlength
    (Code.execBody_agrees hcode.separate hdestinations hcode.body hclear)

private theorem run_init_eq :
    Direct.run ⟨declared, first, env, limit⟩ p.code.imageSlots values
        (Direct.execInits ⟨declared, first, env, limit⟩
          (Script.parse text options.dialect).script.items) =
      some (Machine.run limit p.code env values p.code.init) := by
  obtain ⟨L, hcode, -⟩ := codeOf_program h
  rw [← hdeclared] at hcode
  exact hcode.run_eq hlength (Code.execInits_agrees hcode.separate hcode.init hclear)

end Runs

end Programs

/-- A run of the code gives what a direct run of the script gives, from any values of the image
variables and in any environment. In the direct run constants come before the scopes around a name;
they may as well come last, if no scope hides a constant that is named in it. -/
theorem code_means_script (h : (ofText text options).program = some p) :
    let script := (Script.parse text options.dialect).script
    let declared := Direct.Declared.ofScript script options.images
    p.code.sources = declared.names .source ∧
    p.code.destinations = declared.names .destination ∧
    p.code.imageSlots.Perm (declared.names .kept) ∧
    ∀ (first : Direct.Precedence) (env : Environment) (limit : Nat) (values : List Float),
      values.length = p.code.imageSlots.length →
      (first = .scopes → Direct.hiddenItems declared script.items = []) →
      let w : Direct.Setting := ⟨declared, first, env, limit⟩
      Direct.run w p.code.imageSlots values (Direct.execBody w script.items) =
          some (Machine.run limit p.code env values p.code.body) ∧
        Direct.run w p.code.imageSlots values (Direct.execInits w script.items) =
          some (Machine.run limit p.code env values p.code.init) := by
  intro script declared
  obtain ⟨L, hcode, -⟩ := codeOf_program h
  refine ⟨hcode.sources, hcode.destinations, imageSlots_perm h, ?_⟩
  intro first env limit values hlength hclear
  exact ⟨run_body_eq h rfl hlength hclear, run_init_eq h rfl hlength hclear⟩

/-! ### Runs at the origin -/

/-- A pixel without sources around it. -/
def origin : Environment := ⟨0, 0, fun _ _ _ _ => .ok 0, none⟩

/-- What a direct run of a script writes at that pixel, where constants come first. -/
def originOutputs (text : String) (options : Options) (order : List String) (values : List Float) :
    Option (Option (List (Option Float))) :=
  let script := (Script.parse text options.dialect).script
  let w : Direct.Setting :=
    ⟨Direct.Declared.ofScript script options.images, .constants, origin, 0⟩
  (Direct.run w order values (Direct.execBody w script.items)).map (·.outputs.toOption)

/-- If a text is read and bound without an error and has at most one image variable, then its
program writes at that pixel what the script does. -/
theorem program_at_origin {names : List String} {values : List Float}
    {outputs : Option (List (Option Float))} (hclean : Clean text options)
    (hkept : (Direct.Declared.ofScript (Script.parse text options.dialect).script
      options.images).names .kept = names) (hshort : names.length ≤ 1)
    (hvalues : values.length = names.length)
    (hdirect : originOutputs text options names values = some outputs) :
    ∃ p, (ofText text options).program = some p ∧ p.code.imageSlots = names ∧
      values.length = p.code.imageSlots.length ∧
      (Machine.run 0 p.code origin values p.code.body).outputs.toOption = outputs := by
  obtain ⟨p, hprogram⟩ := hclean.program
  obtain rfl := imageSlots_eq hprogram hkept hshort
  refine ⟨p, hprogram, rfl, hvalues, ?_⟩
  have hfirst : Direct.Precedence.constants ≠ .scopes := nofun
  rw [originOutputs, run_body_eq hprogram rfl hvalues fun h => absurd h hfirst] at hdirect
  exact Option.some.inj hdirect

/-- A loop inside a loop with a variable of the same name. -/
def nestedLoops : String :=
  "init \x7b total = 1; \x7d\nforeach (k in 1:3) foreach (k in 2:3) total += k;\ndest = total;\n"

/-- A loop whose variable has the name of a constant. -/
def hidingLoop : String := "n = 0;\nforeach (M_PI in 1:3) n += M_PI;\ndest = n;\n"

def toDest : Options := ⟨.standard, [("dest", .destination)], none⟩

/-- The direct run of a script at that pixel. -/
def originRun (first : Direct.Precedence) (text : String) (order : List String)
    (values : List Float) : Option Machine.Result :=
  let script := (Script.parse text toDest.dialect).script
  let w : Direct.Setting := ⟨Direct.Declared.ofScript script toDest.images, first, origin, 0⟩
  Direct.run w order values (Direct.execBody w script.items)

theorem nestedLoops_sum :
    ∃ p, (ofText nestedLoops toDest).program = some p ∧
      originRun .scopes nestedLoops p.code.imageSlots [1] =
        some (Machine.run 0 p.code origin [1] p.code.body) ∧
      (Machine.run 0 p.code origin [1] p.code.body).imageValues = [16] := by
  -- One evaluation for all: each would read the text anew.
  obtain ⟨hclean, hkept, hhidden, hvalues⟩ :
      Clean nestedLoops toDest ∧
      (Direct.Declared.ofScript (Script.parse nestedLoops toDest.dialect).script
        toDest.images).names .kept = ["total"] ∧
      Direct.hiddenItems (Direct.Declared.ofScript
        (Script.parse nestedLoops toDest.dialect).script toDest.images)
        (Script.parse nestedLoops toDest.dialect).script.items = [] ∧
      (originRun .scopes nestedLoops ["total"] [1]).map (·.imageValues) = some [16] := by
    decide +kernel
  obtain ⟨p, hprogram⟩ := hclean.program
  have hslots := imageSlots_eq hprogram hkept (Nat.le_refl 1)
  obtain ⟨-, -, -, hrun⟩ := code_means_script hprogram
  have hbody := (hrun .scopes origin 0 [1] (by rw [hslots]; rfl) fun _ => hhidden).1
  refine ⟨_, hprogram, hbody, ?_⟩
  rw [← hslots, originRun, hbody] at hvalues
  exact Option.some.inj hvalues

/-- Where a loop hides a constant, the code still means the constant: three times `M_PI`, not the
sum of 1, 2 and 3. -/
theorem hidingLoop_adds_constant :
    ∃ p, (ofText hidingLoop toDest).program = some p ∧
      (originRun .scopes hidingLoop p.code.imageSlots []).map (·.outputs.toOption) =
        some (some [some 6]) ∧
      (Machine.run 0 p.code origin [] p.code.body).outputs.toOption =
        some [some 9.42477796076938] := by
  obtain ⟨hclean, hkept, hscopes, hconstants⟩ :
      Clean hidingLoop toDest ∧
      (Direct.Declared.ofScript (Script.parse hidingLoop toDest.dialect).script
        toDest.images).names .kept = [] ∧
      (originRun .scopes hidingLoop [] []).map (·.outputs.toOption) = some (some [some 6]) ∧
      originOutputs hidingLoop toDest [] [] = some (some [some 9.42477796076938]) := by
    decide +kernel
  obtain ⟨p, hprogram, hslots, -, houtputs⟩ :=
    program_at_origin hclean hkept (Nat.zero_le 1) rfl hconstants
  exact ⟨p, hprogram, hslots ▸ hscopes, houtputs⟩

end Compilation

end RasterScript
