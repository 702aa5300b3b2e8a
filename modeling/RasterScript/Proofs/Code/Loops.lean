import RasterScript.Proofs.Binding.Loops
import RasterScript.Proofs.Code.Emission
import RasterScript.Proofs.Machine.Rounds

/-! The slots of loop variables. The code of a script loops over values with slots that no declared
variable has, and with another one in every loop. -/
namespace RasterScript.Code

open Direct (Declared)

/-! ### Loop variables and declared variables -/

/-- A pixel slot that no declared variable has. -/
def Apart (L : Layout) (slot : Slot) : Prop :=
  ∃ i < L.count, slot = .pixel i ∧ ∀ n, L.pixel n ≠ some i

/-- The slots of the loops around a place. -/
def slotsOf (ls : LoopSlots) : List Slot := ls.map fun l => .pixel l.2

section Owned

variable {D : Declared} {L : Layout} {ls : LoopSlots} {around : List Slot}

/-- A load is one of a declared variable or of a loop around it. -/
def Kept (D : Declared) (L : Layout) : List Slot × Reference → Prop
  | (around, .slot slot) => (∃ n, VariableAt D L n slot) ∨ slot ∈ around
  | _ => True

/-- All of the references load what they may inside the loops. -/
def AllKept (D : Declared) (L : Layout) (around : List Slot) (rs : List Reference) : Prop :=
  ∀ r ∈ rs, Kept D L (around, r)

theorem AllKept.nil : AllKept D L around [] := fun _ h => nomatch h

theorem AllKept.append {rs ts : List Reference} (hrs : AllKept D L around rs)
    (hts : AllKept D L around ts) : AllKept D L around (rs ++ ts) :=
  List.forall_mem_append.mpr ⟨hrs, hts⟩

theorem AllKept.cons {r : Reference} {rs : List Reference} (hr : Kept D L (around, r))
    (hrs : AllKept D L around rs) : AllKept D L around (r :: rs) :=
  List.forall_mem_cons.mpr ⟨hr, hrs⟩

theorem VariableAt.not_apart {name : String} {slot : Slot} (h : VariableAt D L name slot) :
    ¬Apart L slot := by
  rintro ⟨i, -, rfl, hi⟩
  cases h with
  | pixel _ hname => exact hi name hname

mutual

theorem Coded.kept : ∀ {e c}, Coded D L ls e c → AllKept D L (slotsOf ls) c.references
  | _, _, .number => .nil
  | _, _, .constant _ => .nil
  | _, _, .loop _ hl => by
    obtain ⟨before, after, rfl, -⟩ := List.lookup_eq_some_iff.mp hl
    exact .cons (.inr (by simp [slotsOf])) .nil
  | _, _, .load _ _ hv => .cons (.inl ⟨_, hv⟩) .nil
  | _, _, .source _ _ _ => .cons trivial .nil
  | _, _, .image _ _ _ hband hpoint => .cons trivial (hband.kept.append hpoint.kept)
  | _, _, .position _ => .cons trivial .nil
  | _, _, .call _ hargs => hargs.kept
  | _, _, .statistic _ hargs => hargs.kept
  | _, _, .unary ha => ha.kept
  | _, _, .binary ha hb => ha.kept.append hb.kept
  | _, _, .cond ht hy hn => ht.kept.append (hy.kept.append hn.kept)

theorem CodedAll.kept : ∀ {es cs}, CodedAll D L ls es cs →
    AllKept D L (slotsOf ls) (exprsReferences cs)
  | _, _, .nil => .nil
  | _, _, .cons he hes => he.kept.append hes.kept

theorem CodedItems.kept : ∀ {e c}, CodedItems D L ls e c →
    AllKept D L (slotsOf ls) (itemsReferences c)
  | _, _, .literal hitems => hitems.kept
  | _, _, .slot _ _ _ => .cons trivial .nil

theorem CodedArguments.kept : ∀ {es cs}, CodedArguments D L ls es cs →
    AllKept D L (slotsOf ls) (argumentsReferences cs)
  | _, _, .nil => .nil
  | _, _, .one he hes => he.kept.append hes.kept
  | _, _, .many he hes => he.kept.append hes.kept

theorem CodedBand.kept : ∀ {e c}, CodedBand D L ls e c →
    AllKept D L (slotsOf ls) (bandReferences c)
  | _, _, .none => .nil
  | _, _, .some he => he.kept

theorem CodedPoint.kept : ∀ {p c}, CodedPoint D L ls p c →
    AllKept D L (slotsOf ls) (pointReferences c)
  | _, _, .none => .nil
  | _, _, .some hx hy => hx.kept.append hy.kept

end

/-- Statements that store to declared variables, loop over values with other slots, and load either
kind only where they may. -/
structure Owned (D : Declared) (L : Layout) (around : List Slot) (cs : List Stmt) : Prop where
  headers : ∀ slot ∈ stmtsHeaders cs, Apart L slot
  stores : ∀ slot ∈ stmtsStores cs, ∃ n, VariableAt D L n slot
  reads : ∀ p ∈ stmtsReads around cs, Kept D L p

theorem AllKept.reading {rs : List Reference} (h : AllKept D L around rs) :
    ∀ p ∈ Code.reading around rs, Kept D L p := by
  intro p hp
  obtain ⟨rfl, hr⟩ := mem_reading.mp hp
  exact h p.2 hr

theorem Owned.nil : Owned D L around [] where
  headers _ h := nomatch h
  stores _ h := nomatch h
  reads _ h := nomatch h

theorem Owned.append {cs ds : List Stmt} (hcs : Owned D L around cs) (hds : Owned D L around ds) :
    Owned D L around (cs ++ ds) where
  headers := by
    rw [stmtsHeaders_append]
    exact List.forall_mem_append.mpr ⟨hcs.headers, hds.headers⟩
  stores := by
    rw [stmtsStores_append]
    exact List.forall_mem_append.mpr ⟨hcs.stores, hds.stores⟩
  reads := by
    rw [stmtsReads_append]
    exact List.forall_mem_append.mpr ⟨hcs.reads, hds.reads⟩

theorem Owned.single {c : Stmt} (hheaders : ∀ slot ∈ c.headers, Apart L slot)
    (hstores : ∀ slot ∈ c.stores, ∃ n, VariableAt D L n slot)
    (hreads : ∀ p ∈ c.reads around, Kept D L p) : Owned D L around [c] where
  headers := by rwa [stmtsHeaders_singleton]
  stores := by rwa [stmtsStores_singleton]
  reads := by rwa [stmtsReads_singleton]

/-- A statement that only evaluates something. -/
theorem Owned.plain {c : Stmt} {rs : List Reference} (hheaders : c.headers = [])
    (hstores : c.stores = []) (hreads : c.reads around = Code.reading around rs)
    (hrs : AllKept D L around rs) : Owned D L around [c] := by
  refine .single ?_ ?_ ?_
  · rw [hheaders]
    exact fun _ h => nomatch h
  · rw [hstores]
    exact fun _ h => nomatch h
  · rw [hreads]
    exact hrs.reading

theorem Fresh.apart {i : Nat} (h : Fresh L ls i) : Apart L (.pixel i) := ⟨i, h.lt, rfl, h.pixel⟩

theorem AllKept.stored {op : AssignOp} {slot : Slot} {c : Expr} (hslot : ∃ n, VariableAt D L n slot)
    (hc : AllKept D L around c.references) : AllKept D L around (stored op slot c).references := by
  unfold Code.stored
  split
  · exact hc
  · exact .cons (.inl hslot) hc

theorem CodedAssign.owned {target : Ident} {op : AssignOp} {value : RasterScript.Expr} {c : Stmt}
    (h : CodedAssign D L ls target op value c) : Owned D L (slotsOf ls) [c] := by
  cases h with
  | store hv hc =>
    refine .single (fun _ h => nomatch h) (fun slot hslot => ?_) (hc.kept.stored ⟨_, hv⟩).reading
    rw [List.mem_singleton.mp hslot]
    exact ⟨_, hv⟩
  | storeList _ hc => exact .plain rfl rfl rfl hc.kept
  | write _ hc => exact .plain rfl rfl rfl hc.kept

mutual

/-- The code of a statement leaves the slots of loops to the loops. -/
theorem CodedStmt.owned : ∀ {ls s cs}, CodedStmt D L ls s cs → Owned D L (slotsOf ls) cs
  | _, _, _, .assign _ _ hc => hc.owned
  | _, _, _, .cond ht hy hn => by
    have hyes := hy.owned
    have hno := hn.owned
    exact .single (List.forall_mem_append.mpr ⟨hyes.headers, hno.headers⟩)
      (List.forall_mem_append.mpr ⟨hyes.stores, hno.stores⟩)
      (List.forall_mem_append.mpr ⟨ht.kept.reading,
        List.forall_mem_append.mpr ⟨hyes.reads, hno.reads⟩⟩)
  | _, _, _, .loop ht hb => by
    have hbody := hb.owned
    exact .single hbody.headers hbody.stores
      (List.forall_mem_append.mpr ⟨ht.kept.reading, hbody.reads⟩)
  | _, _, _, .foreachItem hi hitems hb => by
    have hbody := hb.owned
    exact .single (List.forall_mem_cons.mpr ⟨hi.apart, hbody.headers⟩) hbody.stores
      (List.forall_mem_append.mpr ⟨hitems.kept.reading, hbody.reads⟩)
  | _, _, _, .foreachInt hi hlow hhigh hb => by
    have hbody := hb.owned
    exact .single (List.forall_mem_cons.mpr ⟨hi.apart, hbody.headers⟩) hbody.stores
      (List.forall_mem_append.mpr ⟨(hlow.kept.append hhigh.kept).reading, hbody.reads⟩)
  | _, _, _, .block hbody => hbody.owned
  | _, _, _, .breakIf ht => .plain rfl rfl rfl ht.kept
  | _, _, _, .leave => @Owned.plain D L _ _ [] rfl rfl rfl .nil

theorem CodedElse.owned : ∀ {ls s cs}, CodedElse D L ls s cs → Owned D L (slotsOf ls) cs
  | _, _, _, .none => .nil
  | _, _, _, .some hs => hs.owned

theorem CodedStmts.owned : ∀ {ls ss cs}, CodedStmts D L ls ss cs → Owned D L (slotsOf ls) cs
  | _, _, _, .nil => .nil
  | _, _, _, .cons hs hss => hs.owned.append hss.owned

end

theorem CodedValues.owned {values : List NamedValue} {cs : List Stmt}
    (h : CodedValues D L values cs) : Owned D L [] cs ∧ stmtsHeaders cs = [] := by
  induction h with
  | nil => exact ⟨.nil, rfl⟩
  | @cons v _ i c cs _ hkept hi hc _ ih =>
    have hat : VariableAt D L v.ident.name (.image i) := .image hkept hi
    have hfirst : Owned D L [] [.store (.image i) c] := by
      refine .single (fun _ h => nomatch h) (fun slot hslot => ?_) hc.kept.reading
      rw [List.mem_singleton.mp hslot]
      exact ⟨_, hat⟩
    exact ⟨hfirst.append ih.1, ih.2⟩

/-- The code of `init` blocks has no loops. -/
theorem CodedInit.owned {items : List Item} {cs : List Stmt} (h : CodedInit D L items cs) :
    Owned D L [] cs ∧ stmtsHeaders cs = [] := by
  induction h with
  | nil => exact ⟨.nil, rfl⟩
  | init hvalues _ ih =>
    refine ⟨hvalues.owned.1.append ih.1, ?_⟩
    rw [stmtsHeaders_append, hvalues.owned.2, ih.2]
    rfl
  | images _ ih => exact ih
  | options _ ih => exact ih
  | stmt _ ih => exact ih

theorem CodedBody.owned {items : List Item} {cs : List Stmt} (h : CodedBody D L items cs) :
    Owned D L [] cs := by
  induction h with
  | nil => exact .nil
  | stmt hs _ ih => exact hs.owned.append ih
  | images _ ih => exact ih
  | options _ ih => exact ih
  | init _ ih => exact ih

end Owned

/-! ### One loop and another -/

/-- Loops over values run with the slots of the symbols that their variables were noted as. -/
def HeadersOf (b : Binding) (S : Slots) : List Ident → List Slot → Prop :=
  List.Forall₂ fun v slot => ∃ id, (v.span, .symbol id) ∈ b.names ∧ S.scalars.lookup id = some slot

namespace Lower

open Binding (Bound BoundStmt BoundElse BoundStmts BoundItem)

variable {b : Binding} {script : Script} {images : List (String × ImageRole)}

mutual

private theorem stmt_headers (h : Bound script images b) :
    ∀ {loops s}, BoundStmt b loops s → ∀ ls, Emits b loops ls (stmt b s)
      fun cs S => HeadersOf b S s.loopVars (stmtsHeaders cs)
  | _, _, .assign hvalue hplain hs hassign, ls => by
    refine (stmt_emits h (.assign hvalue hplain hs hassign) ls).mono fun cs S _ _ hcs => ?_
    cases hcs with
    | assign _ _ hc => cases hc <;> exact .nil
  | _, _, .cond ht hy hn, ls => by
    rw [stmt]
    refine (scalar_emits h ht).bind fun _ => (stmt_headers h hy ls).bind fun _ =>
      (other_headers h hn ls).bind fun _ => Emits.pure fun _ _ _ hds hcs _ => ?_
    rw [stmtsHeaders_singleton]
    exact List.rel_append hcs hds
  | _, _, .loop ht hbody, ls => by
    rw [stmt]
    refine (scalar_emits h ht).bind fun _ => (stmt_headers h hbody ls).bind fun _ =>
      Emits.pure fun _ _ _ hcs _ => ?_
    rwa [stmtsHeaders_singleton]
  | _, _, .foreach (.list hitems) hnoted hs hkind hfresh hbody, ls => by
    rw [stmt]
    refine (loopSlot_emits h hnoted hs hkind).bindLoop fun i =>
      (list_emits h hitems).inside.bind fun _ => (stmt_headers h hbody _).bind fun _ =>
        Emits.pure fun S _ hls hcs _ => ?_
    rw [stmtsHeaders_singleton]
    exact .cons ⟨_, hnoted, (List.forall₂_cons.mp hls).1.2⟩ hcs
  | _, _, .foreach (.range hlow hhigh) hnoted hs hkind hfresh hbody, ls => by
    rw [stmt]
    refine (loopSlot_emits h hnoted hs hkind).bindLoop fun i =>
      (scalar_emits h hlow).inside.bind fun _ => (scalar_emits h hhigh).inside.bind fun _ =>
        (stmt_headers h hbody _).bind fun _ => Emits.pure fun S _ hls hcs _ _ => ?_
    rw [stmtsHeaders_singleton]
    exact .cons ⟨_, hnoted, (List.forall₂_cons.mp hls).1.2⟩ hcs
  | _, _, .block hbody, ls => by
    rw [stmt]
    exact stmts_headers h hbody ls
  | _, _, .breakIf ht, ls => by
    rw [stmt]
    exact (scalar_emits h ht).bind fun _ => Emits.pure fun _ _ _ _ => .nil
  | _, _, .leave, ls => by
    rw [stmt]
    exact Emits.pure fun _ _ _ => .nil

private theorem other_headers (h : Bound script images b) :
    ∀ {loops s}, BoundElse b loops s → ∀ ls, Emits b loops ls (other b s)
      fun cs S => HeadersOf b S (elseLoopVars s) (stmtsHeaders cs)
  | _, _, .none, ls => by
    rw [other]
    exact Emits.pure fun _ _ _ => .nil
  | _, _, .some hs, ls => by
    rw [other]
    exact stmt_headers h hs ls

private theorem stmts_headers (h : Bound script images b) :
    ∀ {loops ss}, BoundStmts b loops ss → ∀ ls, Emits b loops ls (stmts b ss)
      fun cs S => HeadersOf b S (stmtsLoopVars ss) (stmtsHeaders cs)
  | _, _, .nil, ls => by
    rw [stmts]
    exact Emits.pure fun _ _ _ => .nil
  | _, _, .cons hs hss, ls => by
    rw [stmts]
    refine (stmt_headers h hs ls).bind fun _ => (stmts_headers h hss ls).bind fun _ =>
      Emits.pure fun _ _ _ hds hcs => ?_
    rw [stmtsHeaders_append]
    exact List.rel_append hcs hds

end

theorem body_headers (h : Bound script images b) (items : List Item)
    (hitems : ∀ i ∈ items, BoundItem b i) :
    Emits b [] [] (body b items) fun cs S =>
      HeadersOf b S (items.flatMap Item.loopVars) (stmtsHeaders cs) := by
  induction items with
  | nil => exact Emits.pure fun _ _ _ => .nil
  | cons i items ih =>
    obtain ⟨hi, hitems⟩ := List.forall_mem_cons.mp hitems
    have hrest := ih hitems
    cases hi with
    | stmt hs =>
      refine (stmt_headers h hs []).bind fun _ => hrest.bind fun _ =>
        Emits.pure fun _ _ _ hds hcs => ?_
      rw [stmtsHeaders_append]
      exact List.rel_append hcs hds
    | images | options | init => exact hrest

end Lower

section Headers

variable {b : Binding} {script : Script} {images : List (String × ImageRole)} {c : Code}

theorem ofScript_headers (h : Binding.Bound script images b) (hc : ofScript script b = .ok c) :
    ∃ S : Slots, S.Ok b ∧ HeadersOf b S script.loopVars (stmtsHeaders c.body) := by
  have hemits : Lower.Emits b [] []
      (do
        let init ← Lower.init b script.items
        let body ← Lower.body b script.items
        return (init, body) : Lower (List Stmt × List Stmt))
      fun p S => HeadersOf b S script.loopVars (stmtsHeaders p.2) :=
    (Lower.init_emits h _ h.items).bind fun _ => (Lower.body_headers h _ h.items).bind fun _ =>
      Lower.Emits.pure fun _ _ _ hbody _ => hbody
  obtain ⟨-, -, hok, hheaders⟩ := hemits .empty (Slots.ok_empty b) .nil
  have hbody := hheaders _ (.refl _) hok .nil
  rw [ofScript] at hc
  generalize StateT.run _ Slots.empty = r at hok hbody hc
  obtain ⟨⟨init, body⟩, s⟩ := r
  dsimp only at hc
  split at hc
  · cases hc
    exact ⟨s, hok, hbody⟩
  · cases hc

/-- Members that share no partner with a member of another key have different partners. -/
theorem nodup_of_forall₂ {α β γ : Type} {R : α → β → Prop} {key : α → γ} {l : List α} {m : List β}
    (h : List.Forall₂ R l m) (hkeys : (l.map key).Nodup)
    (hR : ∀ a ∈ l, ∀ a' ∈ l, ∀ x, R a x → R a' x → key a = key a') : m.Nodup := by
  induction h with
  | nil => exact .nil
  | @cons a x l m hax hlm ih =>
    rw [List.map_cons, List.nodup_cons] at hkeys
    refine List.nodup_cons.mpr ⟨fun hx => ?_, ih hkeys.2 fun b hb c hc =>
      hR b (List.mem_cons_of_mem a hb) c (List.mem_cons_of_mem a hc)⟩
    obtain ⟨a', ha', hax'⟩ : ∃ a' ∈ l, R a' x := by
      clear ih hR hkeys hax
      induction hlm with
      | nil => cases hx
      | @cons b y l m hby _ ih =>
        rcases List.mem_cons.mp hx with rfl | hx
        · exact ⟨b, List.mem_cons_self, hby⟩
        · obtain ⟨a', ha', hax'⟩ := ih hx
          exact ⟨a', List.mem_cons_of_mem b ha', hax'⟩
    refine hkeys.1 (List.mem_map.mpr ⟨a', ha', ?_⟩)
    exact hR a' (List.mem_cons_of_mem a ha') a List.mem_cons_self x hax' hax

/-- Every loop over values has a slot of its own. -/
theorem nodup_headers (h : Binding.Bound script images b) (hc : ofScript script b = .ok c)
    (hopened : Binding.AllOpened b script.loopVars) (hnames : script.names.Nodup) :
    (stmtsHeaders c.body).Nodup := by
  obtain ⟨S, hok, hheaders⟩ := ofScript_headers h hc
  refine nodup_of_forall₂ hheaders (hnames.sublist script.loopVars_sublist) ?_
  rintro v hv w hw slot ⟨i, hi, hislot⟩ ⟨j, hj, hjslot⟩
  obtain ⟨y, hy, hynoted, hyspan⟩ := hopened v hv
  obtain ⟨z, hz, hznoted, hzspan⟩ := hopened w hw
  have hyi : y.id = i := Option.some.inj
    ((Binding.symbolAt?_eq h hynoted).symm.trans (Binding.symbolAt?_eq h hi))
  have hzj : z.id = j := Option.some.inj
    ((Binding.symbolAt?_eq h hznoted).symm.trans (Binding.symbolAt?_eq h hj))
  -- One slot has one symbol, and a symbol one place.
  have hid : y.id = z.id := by rw [hyi, hok.separate hislot hjslot, hzj]
  rw [← hyspan, ← hzspan, h.good.wf.eq_of_id hy hz hid]

end Headers

end RasterScript.Code
