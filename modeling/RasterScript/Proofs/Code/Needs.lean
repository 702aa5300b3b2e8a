import RasterScript.Proofs.Code.References
import RasterScript.Proofs.Machine.Demands

/-! What a script needs for its evaluation, read off its text. Code that stands for a script demands
nothing else. -/
namespace RasterScript

/-! ### Needs of a script -/

/-- Whether groups give a band: it stands alone in the first one. -/
def Selector.giveBand {ε : Type} : List (Selector ε) → Bool
  | ⟨[_], _⟩ :: _ => true
  | _ => false

/-- The position function that a call needs, if it is one. -/
def callNeeds (f : Ident) : List (Demand String) :=
  match Builtin.ofName? f.name with
  | some (.position p) => [.position p]
  | _ => []

mutual

/-- What an expression needs. A bare name may always be that of an image. -/
def Expr.needs : Expr → List (Demand String)
  | .number _ _ => []
  | .name id _ => [.sample id.name false]
  | .call f args _ => callNeeds f ++ exprsNeeds args
  | .image id selectors _ => .sample id.name (Selector.giveBand selectors) :: groupsNeeds selectors
  | .list items _ => exprsNeeds items
  | .unary _ a _ => a.needs
  | .binary _ a b _ => a.needs ++ b.needs
  | .cond t a b _ => t.needs ++ (a.needs ++ b.needs)

def exprsNeeds : List Expr → List (Demand String)
  | [] => []
  | e :: es => e.needs ++ exprsNeeds es

def groupsNeeds : List (Selector Expr) → List (Demand String)
  | [] => []
  | s :: ss => groupNeeds s ++ groupsNeeds ss

def groupNeeds : Selector Expr → List (Demand String)
  | ⟨cs, _⟩ => coordsNeeds cs

def coordsNeeds : List (Coord Expr) → List (Demand String)
  | [] => []
  | c :: cs => coordNeeds c ++ coordsNeeds cs

def coordNeeds : Coord Expr → List (Demand String)
  | ⟨_, value, _⟩ => value.needs

end

def Source.needs : Source → List (Demand String)
  | .list items => items.needs
  | .range low high => low.needs ++ high.needs

mutual

/-- What a statement needs. -/
def Stmt.needs : Stmt → List (Demand String)
  | .assign _ _ value _ => value.needs
  | .cond test yes no _ => test.needs ++ (yes.needs ++ elseNeeds no)
  | .loop _ test body _ => .rounds :: (test.needs ++ body.needs)
  | .foreach _ source body _ => source.needs ++ body.needs
  | .block body _ => stmtsNeeds body
  | .breakIf test _ => test.needs
  | .leave _ => []

def elseNeeds : Option Stmt → List (Demand String)
  | none => []
  | some s => s.needs

def stmtsNeeds : List Stmt → List (Demand String)
  | [] => []
  | s :: ss => s.needs ++ stmtsNeeds ss

end

/-- What an item needs. Options are constants. -/
def Item.needs : Item → List (Demand String)
  | .images _ _ => []
  | .init values _ => values.flatMap fun v => v.value.needs
  | .options _ _ => []
  | .stmt s => s.needs

def Script.needs (script : Script) : List (Demand String) := script.items.flatMap Item.needs

theorem Access.isSome_band {ε : Type} {ss : List (Selector ε)} {a : Access ε}
    (h : ofSelectors ss = .ok a) : a.band.isSome = Selector.giveBand ss := by
  cases selects_of_ofSelectors h <;> rfl

namespace Code

open Direct (Declared Role)

/-! ### Demands of its code -/

/-- What makes the code of a script with the given needs demand something. -/
def Rooted (D : Declared) (ns : List (Demand String)) : Demand Nat → Prop
  | .sample i banded => ∃ name, ImageAt D .source name i ∧ .sample name banded ∈ ns
  | .position p => .position p ∈ ns
  | .rounds => .rounds ∈ ns

theorem Rooted.mono {D : Declared} {ms ns : List (Demand String)} {d : Demand Nat}
    (h : Rooted D ms d) (hsub : ms ⊆ ns) : Rooted D ns d := by
  cases d with
  | sample i banded =>
    obtain ⟨name, himage, hmem⟩ := h
    exact ⟨name, himage, hsub hmem⟩
  | position p => exact hsub h
  | rounds => exact hsub h

/-- All of the demands come from the needs. -/
def AllRooted (D : Declared) (ns : List (Demand String)) (ds : List (Demand Nat)) : Prop :=
  ∀ d ∈ ds, Rooted D ns d

section Rooted

variable {D : Declared} {L : Layout} {ms ns : List (Demand String)} {ds es : List (Demand Nat)}

theorem AllRooted.mono (h : AllRooted D ms ds) (hsub : ms ⊆ ns) : AllRooted D ns ds :=
  fun d hd => (h d hd).mono hsub

theorem AllRooted.append (hds : AllRooted D ms ds) (hes : AllRooted D ns es) :
    AllRooted D (ms ++ ns) (ds ++ es) :=
  List.forall_mem_append.mpr
    ⟨hds.mono (List.subset_append_left _ _), hes.mono (List.subset_append_right _ _)⟩

theorem AllRooted.nil : AllRooted D ns [] := List.forall_mem_nil _

theorem AllRooted.single {s : Stmt} (h : AllRooted D ns s.demands) :
    AllRooted D ns (stmtsDemands [s]) := by
  rwa [stmtsDemands_singleton]

private theorem needs_of_mem_coords {cs : List (Coord RasterScript.Expr)} {e : RasterScript.Expr}
    (he : e ∈ cs.map (·.value)) : e.needs ⊆ coordsNeeds cs := by
  induction cs with
  | nil => cases he
  | cons c cs ih =>
    obtain ⟨relative, value, span⟩ := c
    rw [coordsNeeds]
    rcases List.mem_cons.mp he with rfl | he
    · exact List.subset_append_left _ _
    · exact List.subset_append_of_subset_right _ (ih he)

private theorem needs_of_mem_values {ss : List (Selector RasterScript.Expr)} {e : RasterScript.Expr}
    (he : e ∈ Selector.values ss) : e.needs ⊆ groupsNeeds ss := by
  induction ss with
  | nil => cases he
  | cons s ss ih =>
    obtain ⟨cs, span⟩ := s
    rw [groupsNeeds]
    rw [Selector.values, List.flatMap_cons] at he
    rcases List.mem_append.mp he with he | he
    · exact List.subset_append_of_subset_left _ (needs_of_mem_coords he)
    · exact List.subset_append_of_subset_right _ (ih he)

theorem CodedBand.isSome_eq {ls : LoopSlots} {e : Option RasterScript.Expr} {c : Option Expr}
    (h : CodedBand D L ls e c) : c.isSome = e.isSome := by
  cases h with
  | none => rfl
  | some _ => rfl

mutual

/-- Everything that the code of an expression demands, the expression needs. -/
theorem Coded.rooted : ∀ {ls e c}, Coded D L ls e c → AllRooted D e.needs c.demands
  | _, _, _, .number => .nil
  | _, _, _, .constant _ => .nil
  | _, _, _, .loop _ _ => .nil
  | _, _, _, .load _ _ _ => .nil
  | _, _, _, @Coded.source _ _ _ id _ _ _ _ hi =>
    List.forall_mem_singleton.mpr ⟨id.name, hi, List.mem_singleton_self _⟩
  | _, _, _, @Coded.image _ _ _ id selectors _ i access band point _ hi ha hband hpoint => by
    obtain ⟨hbands, hpoints⟩ := Access.mem_values ha
    have hgroups : groupsNeeds selectors ⊆
        .sample id.name (Selector.giveBand selectors) :: groupsNeeds selectors :=
      List.subset_cons_self _ _
    refine List.forall_mem_append.mpr ⟨?_, List.forall_mem_append.mpr ⟨?_, ?_⟩⟩
    · exact (hband.rooted fun e he => needs_of_mem_values (hbands e he)).mono hgroups
    · exact (hpoint.rooted fun x y hxy => ⟨needs_of_mem_values (hpoints x y hxy).1,
        needs_of_mem_values (hpoints x y hxy).2⟩).mono hgroups
    · refine List.forall_mem_singleton.mpr ⟨id.name, hi, ?_⟩
      rw [hband.isSome_eq, Access.isSome_band ha]
      exact List.mem_cons_self
  | _, _, _, @Coded.position _ _ _ f args _ p hf => by
    refine List.forall_mem_singleton.mpr (List.mem_append_left (exprsNeeds args) ?_)
    rw [callNeeds, hf]
    exact List.mem_singleton_self _
  | _, _, _, .call _ hargs => hargs.rooted.mono (List.subset_append_right _ _)
  | _, _, _, .statistic _ hargs => hargs.rooted.mono (List.subset_append_right _ _)
  | _, _, _, .unary ha => ha.rooted
  | _, _, _, .binary ha hb => ha.rooted.append hb.rooted
  | _, _, _, .cond ht hy hn => ht.rooted.append (hy.rooted.append hn.rooted)

theorem CodedAll.rooted : ∀ {ls es cs}, CodedAll D L ls es cs →
    AllRooted D (exprsNeeds es) (exprsDemands cs)
  | _, _, _, .nil => .nil
  | _, _, _, .cons he hes => he.rooted.append hes.rooted

theorem CodedItems.rooted : ∀ {ls e c}, CodedItems D L ls e c →
    AllRooted D e.needs (itemsDemands c)
  | _, _, _, .literal hitems => hitems.rooted
  | _, _, _, .slot _ _ _ => .nil

theorem CodedArguments.rooted : ∀ {ls es cs}, CodedArguments D L ls es cs →
    AllRooted D (exprsNeeds es) (argumentsDemands cs)
  | _, _, _, .nil => .nil
  | _, _, _, .one he hes => he.rooted.append hes.rooted
  | _, _, _, .many he hes => he.rooted.append hes.rooted

theorem CodedBand.rooted : ∀ {ls e c ns}, CodedBand D L ls e c →
    (∀ a, e = some a → a.needs ⊆ ns) → AllRooted D ns (bandDemands c)
  | _, _, _, _, .none, _ => .nil
  | _, _, _, _, .some he, hns => he.rooted.mono (hns _ rfl)

theorem CodedPoint.rooted : ∀ {ls p c ns}, CodedPoint D L ls p c →
    (∀ x y, p = some (x, y) → x.value.needs ⊆ ns ∧ y.value.needs ⊆ ns) →
    AllRooted D ns (pointDemands c)
  | _, _, _, _, .none, _ => .nil
  | _, _, _, _, .some hx hy, hns =>
    List.forall_mem_append.mpr ⟨hx.rooted.mono (hns _ _ rfl).1, hy.rooted.mono (hns _ _ rfl).2⟩

end

private theorem demands_stored (op : AssignOp) (slot : Slot) (c : Expr) :
    (stored op slot c).demands = c.demands := by
  unfold stored
  split
  · rfl
  · rw [Expr.demands, Expr.demands, List.nil_append]

theorem CodedAssign.rooted {ls : LoopSlots} {target : Ident} {op : AssignOp}
    {value : RasterScript.Expr} {c : Stmt} (h : CodedAssign D L ls target op value c) :
    AllRooted D value.needs c.demands := by
  cases h with
  | store _ hc =>
    rw [Stmt.demands, demands_stored]
    exact hc.rooted
  | storeList _ hc => exact hc.rooted
  | write _ hc => exact hc.rooted

mutual

/-- Everything that the code of a statement demands, the statement needs. -/
theorem CodedStmt.rooted : ∀ {ls s cs}, CodedStmt D L ls s cs →
    AllRooted D s.needs (stmtsDemands cs)
  | _, _, _, .assign _ _ hc => hc.rooted.single
  | _, _, _, .cond ht hy hn => (ht.rooted.append (hy.rooted.append hn.rooted)).single
  | _, _, _, .loop ht hbody => by
    refine AllRooted.single (List.forall_mem_cons.mpr ⟨List.mem_cons_self, ?_⟩)
    exact (ht.rooted.append hbody.rooted).mono (List.subset_cons_self _ _)
  | _, _, _, .foreachItem _ hitems hbody => (hitems.rooted.append hbody.rooted).single
  | _, _, _, .foreachInt _ hlow hhigh hbody =>
    ((hlow.rooted.append hhigh.rooted).append hbody.rooted).single
  | _, _, _, .block hbody => hbody.rooted
  | _, _, _, .breakIf ht => ht.rooted.single
  | _, _, _, .leave => .nil

theorem CodedElse.rooted : ∀ {ls s cs}, CodedElse D L ls s cs →
    AllRooted D (elseNeeds s) (stmtsDemands cs)
  | _, _, _, .none => .nil
  | _, _, _, .some hs => hs.rooted

theorem CodedStmts.rooted : ∀ {ls ss cs}, CodedStmts D L ls ss cs →
    AllRooted D (stmtsNeeds ss) (stmtsDemands cs)
  | _, _, _, .nil => .nil
  | _, _, _, .cons hs hss => by
    rw [stmtsDemands_append]
    exact hs.rooted.append hss.rooted

end

theorem CodedValues.rooted {values : List NamedValue} {cs : List Stmt}
    (h : CodedValues D L values cs) :
    AllRooted D (values.flatMap fun v => v.value.needs) (stmtsDemands cs) := by
  induction h with
  | nil => exact .nil
  | cons _ _ _ hc _ ih => exact hc.rooted.append ih

theorem CodedInit.rooted {items : List Item} {cs : List Stmt} (h : CodedInit D L items cs) :
    AllRooted D (items.flatMap Item.needs) (stmtsDemands cs) := by
  induction h with
  | nil => exact .nil
  | init hvalues _ ih =>
    rw [stmtsDemands_append]
    exact hvalues.rooted.append ih
  | images _ ih => exact ih
  | options _ ih => exact ih
  | stmt _ ih => exact ih.mono (List.subset_append_right _ _)

theorem CodedBody.rooted {items : List Item} {cs : List Stmt} (h : CodedBody D L items cs) :
    AllRooted D (items.flatMap Item.needs) (stmtsDemands cs) := by
  induction h with
  | nil => exact .nil
  | stmt hs _ ih =>
    rw [stmtsDemands_append]
    exact hs.rooted.append ih
  | images _ ih => exact ih
  | options _ ih => exact ih
  | init _ ih => exact ih.mono (List.subset_append_right _ _)

end Rooted

end Code

end RasterScript
