import RasterScript.Proofs.Binding.Lexical

/-! Every `foreach` declares a symbol of its own, at the place of its variable. -/
namespace RasterScript

mutual

/-- The variables of the `foreach` statements in a statement, in the order of the text. -/
def Stmt.loopVars : Stmt → List Ident
  | .assign _ _ _ _ => []
  | .cond _ yes no _ => yes.loopVars ++ elseLoopVars no
  | .loop _ _ body _ => body.loopVars
  | .foreach var _ body _ => var :: body.loopVars
  | .block body _ => stmtsLoopVars body
  | .breakIf _ _ => []
  | .leave _ => []

def elseLoopVars : Option Stmt → List Ident
  | none => []
  | some s => s.loopVars

def stmtsLoopVars : List Stmt → List Ident
  | [] => []
  | s :: ss => s.loopVars ++ stmtsLoopVars ss

end

def Item.loopVars : Item → List Ident
  | .stmt s => s.loopVars
  | _ => []

def Script.loopVars (script : Script) : List Ident := script.items.flatMap Item.loopVars

mutual

theorem Stmt.loopVars_sublist : ∀ s : Stmt, (s.loopVars.map (·.span)).Sublist s.names
  | .assign _ _ _ _ => List.nil_sublist _
  | .cond _ yes no _ => by
    rw [Stmt.loopVars, Stmt.names, List.map_append]
    exact (yes.loopVars_sublist.append (elseLoopVars_sublist no)).trans (List.sublist_append_right _ _)
  | .loop _ _ body _ => body.loopVars_sublist.trans (List.sublist_append_right _ _)
  | .foreach _ _ body _ =>
    (body.loopVars_sublist.trans (List.sublist_append_right _ _)).cons_cons _
  | .block body _ => stmtsLoopVars_sublist body
  | .breakIf _ _ => List.nil_sublist _
  | .leave _ => List.nil_sublist _

private theorem elseLoopVars_sublist : ∀ s : Option Stmt,
    ((elseLoopVars s).map (·.span)).Sublist (elseNames s)
  | none => List.nil_sublist _
  | some s => s.loopVars_sublist

private theorem stmtsLoopVars_sublist : ∀ ss : List Stmt,
    ((stmtsLoopVars ss).map (·.span)).Sublist (stmtsNames ss)
  | [] => List.nil_sublist _
  | s :: ss => by
    rw [stmtsLoopVars, stmtsNames, List.map_append]
    exact s.loopVars_sublist.append (stmtsLoopVars_sublist ss)

end

theorem Script.loopVars_sublist (script : Script) :
    (script.loopVars.map (·.span)).Sublist script.names := by
  rw [loopVars, names]
  generalize script.items = items
  induction items with
  | nil => exact .slnil
  | cons i items ih =>
    rw [List.flatMap_cons, List.flatMap_cons, List.map_append]
    refine List.Sublist.append ?_ ih
    cases i with
    | stmt s => exact s.loopVars_sublist
    | images | init | options => exact List.nil_sublist _

namespace Binding

open SymbolTable (Loops Extends pixelScope)

/-- A loop variable was noted as a symbol that was declared at its place. -/
def Opened (b : Binding) (v : Ident) : Prop :=
  ∃ y ∈ b.table.symbols, (v.span, .symbol y.id) ∈ b.names ∧ y.span = v.span

/-- All of the loop variables have symbols of their own. -/
def AllOpened (b : Binding) (vs : List Ident) : Prop := ∀ v ∈ vs, Opened b v

theorem AllOpened.append {b : Binding} {vs ws : List Ident} (hvs : AllOpened b vs)
    (hws : AllOpened b ws) : AllOpened b (vs ++ ws) :=
  List.forall_mem_append.mpr ⟨hvs, hws⟩

section Statements

variable {given : List String} {c : Context} {loops : Loops}

private theorem loop_opens (var : Ident) (body : Stmt)
    (hbody : ∀ scope id, Leads (Inside given scope ((var.name, id) :: loops))
      (Inside given scope ((var.name, id) :: loops))
      (stmt { c with scope := scope, inLoop := true } body) fun _ b => AllOpened b body.loopVars) :
    Leads (Inside given c.scope loops) (Inside given c.scope loops)
      (do
        let scope ← openLoop c.scope var
        stmt { c with scope := scope, inLoop := true } body)
      fun _ b => AllOpened b (var :: body.loopVars) := by
  intro a hclean h
  rw [run_bind, openLoop_run h.good.wf] at hclean ⊢
  obtain ⟨hlast, hext, hpost⟩ := hbody _ _ _ hclean (h.withLoop var)
  have hkeeps := stmt_keeping body { c with scope := a.binding.table.scopes.length, inLoop := true }
    { a with
      binding.table := a.binding.table.withLoop c.scope var.name var.span
      binding.names := (var.span, .symbol a.binding.table.symbols.length) :: a.binding.names }
  have hopen : Extends a.binding.table (a.binding.table.withLoop c.scope var.name var.span) :=
    SymbolTable.extends_withLoop c.scope
  refine ⟨h.extend (hopen.trans hext) hlast.good, hopen.trans hext, fun b hb => ?_⟩
  have hsymbol := (hext.trans hb.table).symbol? SymbolTable.symbol?_withSymbol
  refine List.forall_mem_cons.mpr ⟨?_, hpost b hb⟩
  exact ⟨_, List.mem_of_getElem? hsymbol, hb.names _ (hkeeps.names _ List.mem_cons_self), rfl⟩

mutual

/-- The walk through a statement opens its loops. -/
theorem stmt_opens : ∀ (s : Stmt) (c : Context) (loops : Loops),
    Leads (Inside given c.scope loops) (Inside given c.scope loops) (stmt c s)
      fun _ b => AllOpened b s.loopVars
  | .assign target op value span, c, loops =>
    (stmt_declares (.assign target op value span) c loops).leads.mono fun _ _ _ _ h => nomatch h
  | .cond test yes no span, c, loops =>
    (scalar_declares test).leads.bind
      (fun _ => (stmt_keeping yes c).bind fun _ => other_keeping no c) fun _ =>
        (stmt_opens yes c loops).bind (fun _ => other_keeping no c) fun _ =>
          (other_opens no c loops).mono fun _ _ hno hyes _ => hyes.append hno
  | .loop kind test body span, c, loops =>
    (scalar_declares test).leads.bind (fun _ => stmt_keeping body _) fun _ =>
      (stmt_opens body { c with inLoop := true } loops).mono fun _ _ hbody _ => hbody
  | .foreach var source body span, c, loops => by
    rw [stmt_foreach]
    refine (source_declares source).leads.bind
      (fun _ => (openLoop_keeping _ _).bind fun _ => stmt_keeping body _) fun _ => ?_
    exact (loop_opens var body fun scope id => stmt_opens body _ _).mono fun _ _ hbody _ => hbody
  | .block body span, c, loops => stmts_opens body c loops
  | .breakIf test span, c, loops =>
    (stmt_declares (.breakIf test span) c loops).leads.mono fun _ _ _ _ h => nomatch h
  | .leave span, c, loops =>
    (stmt_declares (.leave span) c loops).leads.mono fun _ _ _ _ h => nomatch h

private theorem other_opens : ∀ (s : Option Stmt) (c : Context) (loops : Loops),
    Leads (Inside given c.scope loops) (Inside given c.scope loops) (other c s)
      fun _ b => AllOpened b (elseLoopVars s)
  | none, _, _ => Reads.leads [] fun _ _ => Reads.pure fun _ _ _ h => nomatch h
  | some s, c, loops => stmt_opens s c loops

private theorem stmts_opens : ∀ (ss : List Stmt) (c : Context) (loops : Loops),
    Leads (Inside given c.scope loops) (Inside given c.scope loops) (stmts c ss)
      fun _ b => AllOpened b (stmtsLoopVars ss)
  | [], _, _ => Reads.leads [] fun _ _ => Reads.pure fun _ _ _ h => nomatch h
  | s :: ss, c, loops =>
    (stmt_opens s c loops).bind (fun _ => stmts_keeping ss c) fun _ =>
      (stmts_opens ss c loops).mono fun _ _ hss hs => hs.append hss

end

private theorem statement_opens (i : Item) :
    Leads (Inside given pixelScope []) (Inside given pixelScope []) (statement i)
      fun _ b => AllOpened b i.loopVars := by
  cases i with
  | stmt s => exact stmt_opens s .pixel []
  | images | init | options => exact Reads.leads [] fun _ _ => Reads.pure fun _ _ _ h => nomatch h

end Statements

/-- In a script that is bound without an error every `foreach` has a symbol of its own. -/
theorem ofScript_opened (script : Script) (images : List (String × ImageRole))
    (herrors : ∀ f ∈ (ofScript script images).2, f.what.level ≠ .error) :
    AllOpened (ofScript script images).1 script.loopVars := by
  have hclean : Clean ((walk script images).run .initial).2 := herrors
  show AllOpened ((walk script images).run .initial).2.binding script.loopVars
  rw [walk_eq, run_bind] at hclean ⊢
  have hlate := conclusion_keeping script ((preparation script images).run .initial).2
  have hprepared := preparation_declares script images .initial (hlate.clean hclean)
    (early_initial _)
  have hconclusion : Leads (Inside (images.map (·.1)) pixelScope [])
      (Inside (images.map (·.1)) pixelScope []) (conclusion script)
      fun _ b => ∀ i ∈ script.items, AllOpened b i.loopVars :=
    (forM_leads statement_keeping script.items fun i _ => statement_opens i).bind
      (fun _ => Reads.keeping fun _ => finish_reads script.span.start) fun _ =>
        Reads.leads [] fun _ _ => (finish_reads _).mono fun _ _ _ _ h => h
  obtain ⟨-, -, hopened⟩ := hconclusion _ hclean ⟨hprepared.inv.good, .pixel⟩
  exact forall_mem_flatMap (hopened _ (.refl _))

end Binding

end RasterScript
