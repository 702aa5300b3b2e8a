import RasterScript.Proofs.Code.References
import RasterScript.Proofs.Script.Images

/-! The images that code reads and writes are those that its script uses by name and declares. -/
namespace RasterScript.Code

open Direct (Declared Role)

/-- The reference to an image of a role. -/
def Reference.image : ImageRole → Nat → Reference
  | .source => .source
  | .destination => .destination

/-- Whether something is the sample of a source or the value of a destination. -/
def Reference.isImage : Reference → Bool
  | .source _ | .destination _ => true
  | _ => false

/-- The references to images come from the uses of names that are declared as images. -/
def Accounts (D : Declared) (us : List (ImageRole × String)) (rs : List Reference) : Prop :=
  ∀ role i, .image role i ∈ rs ↔
    ∃ name, ImageAt D (Declared.roleOf role) name i ∧ (role, name) ∈ us

section Accounts

variable {D : Declared} {us vs : List (ImageRole × String)} {rs ts : List Reference}
  {role : ImageRole} {name : String} {i : Nat}

theorem Accounts.nil : Accounts D [] [] := by
  intro role i
  simp

theorem Accounts.append (hrs : Accounts D us rs) (hts : Accounts D vs ts) :
    Accounts D (us ++ vs) (rs ++ ts) := by
  intro role i
  simp only [List.mem_append, hrs role i, hts role i, and_or_left, exists_or]

/-- The order of the uses does not matter. -/
theorem Accounts.comm (h : Accounts D (us ++ vs) rs) : Accounts D (vs ++ us) rs := by
  intro role i
  simp only [h role i, List.mem_append, or_comm]

/-- A reference to something else. -/
theorem Accounts.skip {r : Reference} (hr : r.isImage = false) (h : Accounts D us rs) :
    Accounts D us (r :: rs) := by
  intro role i
  rw [List.mem_cons, ← h role i]
  refine or_iff_right ?_
  rintro rfl
  cases role <;> cases hr

theorem Accounts.image (role : ImageRole) (h : ImageAt D (Declared.roleOf role) name i) :
    Accounts D [(role, name)] [.image role i] := by
  intro other j
  simp only [List.mem_singleton, Prod.mk.injEq]
  constructor
  · intro heq
    have hsame : other = role ∧ j = i := by
      cases other <;> cases role <;> cases heq <;> exact ⟨rfl, rfl⟩
    obtain ⟨rfl, rfl⟩ := hsame
    exact ⟨name, h, rfl, rfl⟩
  · rintro ⟨_, hj, rfl, rfl⟩
    rw [Option.some.inj (h.index.symm.trans hj.index)]

/-- A use of a name that is not declared as an image. -/
theorem Accounts.variable (h : D.lookup name ≠ some (Declared.roleOf role)) :
    Accounts D [(role, name)] [] := by
  intro other j
  simp only [List.mem_singleton, Prod.mk.injEq, List.not_mem_nil, false_iff]
  rintro ⟨_, hj, rfl, rfl⟩
  exact h hj.declared

end Accounts

/-! ### Expressions -/

section Expressions

variable {D : Declared} {L : Layout} {ls : LoopSlots}

theorem VariableAt.lookup_ne {name : String} {slot : Slot} (h : VariableAt D L name slot)
    (role : ImageRole) : D.lookup name ≠ some (Declared.roleOf role) := by
  cases h with
  | pixel hd _ => rw [hd]; cases role <;> rintro ⟨⟩
  | image hd _ => rw [hd]; cases role <;> rintro ⟨⟩

theorem ListAt.lookup_ne {name : String} {i : Nat} (h : ListAt D L name i) (role : ImageRole) :
    D.lookup name ≠ some (Declared.roleOf role) := by
  rw [h.declared]
  cases role <;> rintro ⟨⟩

/-- Groups without a fault hold a band and a position, and nothing else. -/
theorem groupsImages_eq {selectors : List (Selector RasterScript.Expr)}
    {access : Access RasterScript.Expr} (h : Access.ofSelectors selectors = .ok access)
    (hidden : List String) :
    groupsImages hidden selectors =
      access.band.elim [] (Expr.images hidden) ++
        access.position.elim [] fun (x, y) => x.value.images hidden ++ y.value.images hidden := by
  have hcoord (c : Coord RasterScript.Expr) : coordImages hidden c = c.value.images hidden := by
    obtain ⟨relative, value, span⟩ := c
    rw [coordImages]
  cases Access.selects_of_ofSelectors h with
  | all => simp [groupsImages]
  | band => simp [groupsImages, groupImages, coordsImages, hcoord]
  | point => simp [groupsImages, groupImages, coordsImages, hcoord]
  | both => simp [groupsImages, groupImages, coordsImages, hcoord]

/-- A name that is neither a constant nor a variable of a loop. -/
theorem images_name {id : Ident} {span : Span} (hconst : constant? id.name = none)
    (hfree : ls.lookup id.name = none) :
    (RasterScript.Expr.name id span).images (ls.map (·.1)) = [(.source, id.name)] := by
  have hhidden := Binding.lookup_eq_none_iff.mp hfree
  rw [RasterScript.Expr.images, hconst, if_neg (by simpa using hhidden)]

mutual

/-- The code of an expression reads the images that the expression uses. -/
theorem Coded.accounts : ∀ {e c}, Coded D L ls e c →
    Accounts D (e.images (ls.map (·.1))) c.references
  | _, _, .number => .nil
  | _, _, @Coded.constant _ _ _ id _ v hconst => by
    rw [RasterScript.Expr.images, hconst, if_pos (.inl rfl)]
    exact .nil
  | _, _, @Coded.loop _ _ _ id _ i hconst hloop => by
    have hhidden : id.name ∈ ls.map (·.1) :=
      List.mem_map.mpr ⟨_, Binding.mem_of_lookup_loops hloop, rfl⟩
    rw [RasterScript.Expr.images, if_pos (.inr hhidden)]
    exact .skip rfl .nil
  | _, _, .load hconst hfree hv => by
    rw [images_name hconst hfree]
    exact .skip rfl (.variable (hv.lookup_ne .source))
  | _, _, .source hconst hfree hi => by
    rw [images_name hconst hfree]
    exact .image .source hi
  | _, _, .image _ hi ha hband hpoint => by
    rw [RasterScript.Expr.images, groupsImages_eq ha]
    exact (Accounts.image .source hi).append (hband.accounts.append hpoint.accounts)
  | _, _, @Coded.position _ _ _ f _ _ _ hf => by
    rw [RasterScript.Expr.images, if_pos (by rw [isPositionCall, hf])]
    exact .skip rfl .nil
  | _, _, .call hf hargs => by
    rw [RasterScript.Expr.images, if_neg (by simp [isPositionCall, hf])]
    exact hargs.accounts
  | _, _, .statistic hf hargs => by
    rw [RasterScript.Expr.images, if_neg (by simp [isPositionCall, hf])]
    exact hargs.accounts
  | _, _, .unary ha => ha.accounts
  | _, _, .binary ha hb => ha.accounts.append hb.accounts
  | _, _, .cond ht hy hn => ht.accounts.append (hy.accounts.append hn.accounts)

theorem CodedAll.accounts : ∀ {es cs}, CodedAll D L ls es cs →
    Accounts D (exprsImages (ls.map (·.1)) es) (exprsReferences cs)
  | _, _, .nil => .nil
  | _, _, .cons he hes => he.accounts.append hes.accounts

theorem CodedItems.accounts : ∀ {e c}, CodedItems D L ls e c →
    Accounts D (e.images (ls.map (·.1))) (itemsReferences c)
  | _, _, .literal hitems => hitems.accounts
  | _, _, .slot hconst hfree hi => by
    rw [images_name hconst hfree]
    exact .skip rfl (.variable (hi.lookup_ne .source))

theorem CodedArguments.accounts : ∀ {es cs}, CodedArguments D L ls es cs →
    Accounts D (exprsImages (ls.map (·.1)) es) (argumentsReferences cs)
  | _, _, .nil => .nil
  | _, _, .one he hes => he.accounts.append hes.accounts
  | _, _, .many he hes => he.accounts.append hes.accounts

theorem CodedBand.accounts : ∀ {e c}, CodedBand D L ls e c →
    Accounts D (e.elim [] (Expr.images (ls.map (·.1)))) (bandReferences c)
  | _, _, .none => .nil
  | _, _, .some he => he.accounts

theorem CodedPoint.accounts : ∀ {p c}, CodedPoint D L ls p c →
    Accounts D (p.elim [] fun (x, y) =>
      x.value.images (ls.map (·.1)) ++ y.value.images (ls.map (·.1))) (pointReferences c)
  | _, _, .none => .nil
  | _, _, .some hx hy => hx.accounts.append hy.accounts

end

end Expressions

/-! ### Statements -/

section Statements

variable {D : Declared} {L : Layout} {us : List (ImageRole × String)}

theorem Accounts.single {c : Stmt} (h : Accounts D us c.references) :
    Accounts D us (stmtsReferences [c]) := by
  rwa [stmtsReferences, stmtsReferences, List.append_nil]

theorem Accounts.stored {op : AssignOp} {slot : Slot} {c : Expr} (h : Accounts D us c.references) :
    Accounts D us (Code.stored op slot c).references := by
  unfold Code.stored
  split
  · exact h
  · exact h.skip rfl

theorem CodedAssign.accounts {ls : LoopSlots} {target : Ident} {op : AssignOp}
    {value : RasterScript.Expr} {c : Stmt} (h : CodedAssign D L ls target op value c) :
    Accounts D (value.images (ls.map (·.1)) ++ [(.destination, target.name)]) c.references := by
  refine Accounts.comm ?_
  cases h with
  | store hv hc =>
    exact ((Accounts.variable (hv.lookup_ne .destination)).append hc.accounts.stored).skip rfl
  | storeList hi hc =>
    exact ((Accounts.variable (hi.lookup_ne .destination)).append hc.accounts).skip rfl
  | write hi hc => exact (Accounts.image .destination hi).append hc.accounts

mutual

/-- The code of a statement reads and writes the images that the statement uses. -/
theorem CodedStmt.accounts : ∀ {ls s cs}, CodedStmt D L ls s cs →
    Accounts D (s.images (ls.map (·.1))) (stmtsReferences cs)
  | _, _, _, .assign _ _ hc => hc.accounts.single
  | _, _, _, .cond ht hy hn =>
    Accounts.single (ht.accounts.append (hy.accounts.append hn.accounts))
  | _, _, _, .loop ht hbody => Accounts.single (ht.accounts.append hbody.accounts)
  | _, _, _, .foreachItem _ hitems hbody =>
    Accounts.single ((hitems.accounts.append hbody.accounts).skip rfl)
  | _, _, _, .foreachInt _ hlow hhigh hbody =>
    Accounts.single (((hlow.accounts.append hhigh.accounts).append hbody.accounts).skip rfl)
  | _, _, _, .block hbody => hbody.accounts
  | _, _, _, .breakIf ht => Accounts.single ht.accounts
  | _, _, _, .leave => .nil

theorem CodedElse.accounts : ∀ {ls s cs}, CodedElse D L ls s cs →
    Accounts D (elseImages (ls.map (·.1)) s) (stmtsReferences cs)
  | _, _, _, .none => .nil
  | _, _, _, .some hs => hs.accounts

theorem CodedStmts.accounts : ∀ {ls ss cs}, CodedStmts D L ls ss cs →
    Accounts D (stmtsImages (ls.map (·.1)) ss) (stmtsReferences cs)
  | _, _, _, .nil => .nil
  | _, _, _, .cons hs hss => by
    rw [stmtsReferences_append]
    exact hs.accounts.append hss.accounts

end

theorem CodedValues.accounts {values : List NamedValue} {cs : List Stmt}
    (h : CodedValues D L values cs) :
    Accounts D (values.flatMap fun v => v.value.images []) (stmtsReferences cs) := by
  induction h with
  | nil => exact .nil
  | cons _ _ _ hc _ ih => exact (hc.accounts.append ih).skip rfl

theorem CodedInit.accounts {items : List Item} {cs : List Stmt} (h : CodedInit D L items cs) :
    Accounts D (items.flatMap Item.initImages) (stmtsReferences cs) := by
  induction h with
  | nil => exact .nil
  | init hvalues _ ih =>
    rw [stmtsReferences_append]
    exact hvalues.accounts.append ih
  | images _ ih => exact ih
  | options _ ih => exact ih
  | stmt _ ih => exact ih

theorem CodedBody.accounts {items : List Item} {cs : List Stmt} (h : CodedBody D L items cs) :
    Accounts D (items.flatMap Item.stmtImages) (stmtsReferences cs) := by
  induction h with
  | nil => exact .nil
  | stmt hs _ ih =>
    rw [stmtsReferences_append]
    exact hs.accounts.append ih
  | images _ ih => exact ih
  | options _ ih => exact ih
  | init _ ih => exact ih

/-- The images that the code of a script reads and writes are those that the script uses. -/
theorem CodeOf.accounts {script : Script} {code : Code} (h : CodeOf D L script code) :
    Accounts D script.images (stmtsReferences code.init ++ stmtsReferences code.body) :=
  h.init.accounts.append h.body.accounts

end Statements

end RasterScript.Code
