import RasterScript.Proofs.Binding.Lexical
import RasterScript.Proofs.Code.Layout

/-! What code refers to by number, and where it writes and leaves loops. Code that stands for a
script refers to what there is, and does nothing where it may not. -/
namespace RasterScript.Code

/-- Something that code refers to. -/
inductive Reference where
  | slot (slot : Slot)
  | list (index : Nat)
  | source (index : Nat)
  | destination (index : Nat)
  | position (f : PositionFunction)
deriving DecidableEq, Repr

/-- How many slots and images there are. -/
structure Sizes where
  image : Nat
  pixel : Nat
  lists : Nat
  sources : Nat
  destinations : Nat
deriving DecidableEq, Repr

/-- The sizes that the tables of names give. -/
def sizes (c : Code) : Sizes where
  image := c.imageSlots.length
  pixel := c.pixelSlots.length
  lists := c.listSlots.length
  sources := c.sources.length
  destinations := c.destinations.length

namespace Reference

/-- There is such a slot or image. -/
def inRange (z : Sizes) : Reference → Bool
  | .slot (.image i) => i < z.image
  | .slot (.pixel i) => i < z.pixel
  | .list i => i < z.lists
  | .source i => i < z.sources
  | .destination i => i < z.destinations
  | .position _ => true

/-- Whether it is known before the first pixel: it is no sample, and not where the pixel lies. -/
def isSteady : Reference → Bool
  | .source _ => false
  | .position f => !f.isPixel
  | _ => true

end Reference

mutual

/-- What an expression refers to. -/
def Expr.references : Expr → List Reference
  | .const _ => []
  | .load slot => [.slot slot]
  | .read image band point => .source image :: (bandReferences band ++ pointReferences point)
  | .position f => [.position f]
  | .unary _ a => a.references
  | .binary _ a b => a.references ++ b.references
  | .select t a b => t.references ++ (a.references ++ b.references)
  | .call _ args => exprsReferences args
  | .statistic _ args => argumentsReferences args

def exprsReferences : List Expr → List Reference
  | [] => []
  | e :: es => e.references ++ exprsReferences es

def bandReferences : Option Expr → List Reference
  | none => []
  | some e => e.references

def pointReferences : Option (Point Expr) → List Reference
  | none => []
  | some p => placesReferences p

def placesReferences : Point Expr → List Reference
  | ⟨x, y⟩ => placeReferences x ++ placeReferences y

def placeReferences : Place Expr → List Reference
  | ⟨_, value⟩ => value.references

def itemsReferences : Items Expr → List Reference
  | .slot i => [.list i]
  | .literal items => exprsReferences items

def argumentReferences : Argument Expr → List Reference
  | .one e => e.references
  | .many items => itemsReferences items

def argumentsReferences : List (Argument Expr) → List Reference
  | [] => []
  | a :: as => argumentReferences a ++ argumentsReferences as

end

mutual

/-- What a statement refers to. -/
def Stmt.references : Stmt → List Reference
  | .store slot value => .slot slot :: value.references
  | .storeList slot value => .list slot :: itemsReferences value
  | .write image value => .destination image :: value.references
  | .cond test yes no => test.references ++ (stmtsReferences yes ++ stmtsReferences no)
  | .loop _ test body => test.references ++ stmtsReferences body
  | .foreachItem var items body => .slot var :: (itemsReferences items ++ stmtsReferences body)
  | .foreachInt var low high body =>
    .slot var :: ((low.references ++ high.references) ++ stmtsReferences body)
  | .breakIf test => test.references
  | .leave => []

def stmtsReferences : List Stmt → List Reference
  | [] => []
  | s :: ss => s.references ++ stmtsReferences ss

end

mutual

/-- Whether loops are left only from inside a loop, and destinations written only outside. -/
def Stmt.placed (inLoop : Bool) : Stmt → Bool
  | .store _ _ => true
  | .storeList _ _ => true
  | .write _ _ => !inLoop
  | .cond _ yes no => stmtsPlaced inLoop yes && stmtsPlaced inLoop no
  | .loop _ _ body => stmtsPlaced true body
  | .foreachItem _ _ body => stmtsPlaced true body
  | .foreachInt _ _ _ body => stmtsPlaced true body
  | .breakIf _ => inLoop
  | .leave => inLoop

def stmtsPlaced (inLoop : Bool) : List Stmt → Bool
  | [] => true
  | s :: ss => s.placed inLoop && stmtsPlaced inLoop ss

end

/-- Whether a statement sets an image variable to a value that is known before the first pixel. -/
def Stmt.setsImage : Stmt → Bool
  | .store (.image _) value => value.references.all Reference.isSteady
  | _ => false

/-- Code that a machine can run. -/
structure WellFormed (c : Code) : Prop where
  initInRange : ∀ r ∈ stmtsReferences c.init, r.inRange c.sizes
  bodyInRange : ∀ r ∈ stmtsReferences c.body, r.inRange c.sizes
  init : ∀ s ∈ c.init, s.setsImage
  body : stmtsPlaced false c.body
  images : (c.sources ++ c.destinations).Nodup

theorem stmtsReferences_append (ss ts : List Stmt) :
    stmtsReferences (ss ++ ts) = stmtsReferences ss ++ stmtsReferences ts := by
  induction ss with
  | nil => rw [stmtsReferences, List.nil_append, List.nil_append]
  | cons s ss ih => rw [List.cons_append, stmtsReferences, stmtsReferences, ih, List.append_assoc]

theorem stmtsPlaced_append (inLoop : Bool) (ss ts : List Stmt) :
    stmtsPlaced inLoop (ss ++ ts) = (stmtsPlaced inLoop ss && stmtsPlaced inLoop ts) := by
  induction ss with
  | nil => rw [stmtsPlaced, List.nil_append, Bool.true_and]
  | cons s ss ih => rw [List.cons_append, stmtsPlaced, stmtsPlaced, ih, Bool.and_assoc]

open Direct (Declared Role)

/-! ### Where references come from -/

section Origins

variable {D : Declared} {L : Layout} {ls : LoopSlots} {ms ns : List Mention}

/-- What makes the code of an expression with the given mentions refer to something. -/
def Stems (D : Declared) (L : Layout) (ms : List Mention) : Reference → Prop
  | .slot (.image i) => i < L.image.length
  | .slot (.pixel i) => i < L.count
  | .list i => i < L.lists.length
  | .source i => ∃ id, ((.name id ∈ ms ∧ constant? id.name = none) ∨ .image id ∈ ms) ∧
      ImageAt D .source id.name i
  | .destination _ => False
  | .position p => ∃ f, .call f ∈ ms ∧ Builtin.ofName? f.name = some (.position p)

theorem Stems.mono {r : Reference} (h : Stems D L ms r) (hms : ms ⊆ ns) : Stems D L ns r := by
  match r, h with
  | .slot (.image _), h => exact h
  | .slot (.pixel _), h => exact h
  | .list _, h => exact h
  | .source _, ⟨id, hid, hi⟩ =>
    exact ⟨id, hid.imp (fun h => ⟨hms h.1, h.2⟩) (fun h => hms h), hi⟩
  | .position _, ⟨f, hf, hp⟩ => exact ⟨f, hms hf, hp⟩

/-- All of the references stem from the mentions. -/
def AllStem (D : Declared) (L : Layout) (ms : List Mention) (rs : List Reference) : Prop :=
  ∀ r ∈ rs, Stems D L ms r

theorem AllStem.mono {rs : List Reference} (h : AllStem D L ms rs) (hms : ms ⊆ ns) :
    AllStem D L ns rs :=
  fun r hr => (h r hr).mono hms

theorem AllStem.append {rs ts : List Reference} (hrs : AllStem D L ms rs)
    (hts : AllStem D L ns ts) : AllStem D L (ms ++ ns) (rs ++ ts) :=
  List.forall_mem_append.mpr
    ⟨hrs.mono (List.subset_append_left _ _), hts.mono (List.subset_append_right _ _)⟩

theorem AllStem.nil : AllStem D L ms [] := fun _ h => nomatch h

theorem VariableAt.stems (ms : List Mention) {name : String} {slot : Slot}
    (h : VariableAt D L name slot) (hL : L.Separate) : Stems D L ms (.slot slot) := by
  cases h with
  | pixel _ hi => exact hL.bound hi
  | image _ hi => exact (List.getElem?_eq_some_iff.mp hi).1

private theorem mentions_of_mem_coords {cs : List (Coord RasterScript.Expr)} {e : RasterScript.Expr}
    (he : e ∈ cs.map (·.value)) : e.mentions ⊆ coordsMentions cs := by
  induction cs with
  | nil => cases he
  | cons c cs ih =>
    obtain ⟨relative, value, span⟩ := c
    rw [coordsMentions]
    rcases List.mem_cons.mp he with rfl | he
    · exact List.subset_append_left _ _
    · exact List.subset_append_of_subset_right _ (ih he)

private theorem mentions_of_mem_values {ss : List (Selector RasterScript.Expr)}
    {e : RasterScript.Expr} (he : e ∈ Selector.values ss) : e.mentions ⊆ groupsMentions ss := by
  induction ss with
  | nil => cases he
  | cons s ss ih =>
    obtain ⟨cs, span⟩ := s
    rw [groupsMentions]
    rw [Selector.values, List.flatMap_cons] at he
    rcases List.mem_append.mp he with he | he
    · exact List.subset_append_of_subset_left _ (mentions_of_mem_coords he)
    · exact List.subset_append_of_subset_right _ (ih he)

mutual

/-- Everything that the code of an expression refers to stems from the expression. -/
theorem Coded.stems (hL : L.Separate) (hls : ∀ l ∈ ls, l.2 < L.count) :
    ∀ {e c}, Coded D L ls e c → AllStem D L e.mentions c.references
  | _, _, .number => .nil
  | _, _, .constant _ => .nil
  | _, _, .loop _ hl => by
    obtain ⟨before, after, rfl, -⟩ := List.lookup_eq_some_iff.mp hl
    exact List.forall_mem_singleton.mpr (hls _ (List.mem_append_right _ List.mem_cons_self))
  | _, _, .load _ _ hv => List.forall_mem_singleton.mpr (hv.stems _ hL)
  | _, _, @Coded.source _ _ _ id _ _ hc _ hi =>
    List.forall_mem_singleton.mpr ⟨id, .inl ⟨List.mem_singleton_self _, hc⟩, hi⟩
  | _, _, @Coded.image _ _ _ id selectors _ i access band point _ hi ha hband hpoint => by
    obtain ⟨hbands, hpoints⟩ := Access.mem_values ha
    refine List.forall_mem_cons.mpr ⟨⟨id, .inr List.mem_cons_self, hi⟩, ?_⟩
    have hinner : groupsMentions selectors ⊆ .image id :: groupsMentions selectors :=
      List.subset_cons_self _ _
    refine List.forall_mem_append.mpr ⟨?_, ?_⟩
    · exact (hband.stems hL hls fun e he => mentions_of_mem_values (hbands e he)).mono hinner
    · exact (hpoint.stems hL hls fun x y hxy => ⟨mentions_of_mem_values (hpoints x y hxy).1,
        mentions_of_mem_values (hpoints x y hxy).2⟩).mono hinner
  | _, _, @Coded.position _ _ _ f _ _ _ hf =>
    List.forall_mem_singleton.mpr ⟨f, List.mem_cons_self, hf⟩
  | _, _, .call _ hargs => (hargs.stems hL hls).mono (List.subset_cons_self _ _)
  | _, _, .statistic _ hargs => (hargs.stems hL hls).mono (List.subset_cons_self _ _)
  | _, _, .unary ha => (ha.stems hL hls)
  | _, _, .binary ha hb => (ha.stems hL hls).append (hb.stems hL hls)
  | _, _, .cond ht hy hn => (ht.stems hL hls).append ((hy.stems hL hls).append (hn.stems hL hls))

theorem CodedAll.stems (hL : L.Separate) (hls : ∀ l ∈ ls, l.2 < L.count) :
    ∀ {es cs}, CodedAll D L ls es cs → AllStem D L (exprsMentions es) (exprsReferences cs)
  | _, _, .nil => .nil
  | _, _, .cons he hes => (he.stems hL hls).append (hes.stems hL hls)

theorem CodedItems.stems (hL : L.Separate) (hls : ∀ l ∈ ls, l.2 < L.count) :
    ∀ {e c}, CodedItems D L ls e c → AllStem D L e.mentions (itemsReferences c)
  | _, _, .literal hitems => (hitems.stems hL hls)
  | _, _, .slot _ _ hi =>
    List.forall_mem_singleton.mpr (List.getElem?_eq_some_iff.mp hi.index).1

theorem CodedArguments.stems (hL : L.Separate) (hls : ∀ l ∈ ls, l.2 < L.count) :
    ∀ {es cs}, CodedArguments D L ls es cs →
      AllStem D L (exprsMentions es) (argumentsReferences cs)
  | _, _, .nil => .nil
  | _, _, .one he hes => (he.stems hL hls).append (hes.stems hL hls)
  | _, _, .many he hes => (he.stems hL hls).append (hes.stems hL hls)

theorem CodedBand.stems (hL : L.Separate) (hls : ∀ l ∈ ls, l.2 < L.count) :
    ∀ {e c ns}, CodedBand D L ls e c → (∀ a, e = some a → a.mentions ⊆ ns) →
      AllStem D L ns (bandReferences c)
  | _, _, _, .none, _ => .nil
  | _, _, _, .some he, hms => (he.stems hL hls).mono (hms _ rfl)

theorem CodedPoint.stems (hL : L.Separate) (hls : ∀ l ∈ ls, l.2 < L.count) :
    ∀ {p c ns}, CodedPoint D L ls p c →
      (∀ x y, p = some (x, y) → x.value.mentions ⊆ ns ∧ y.value.mentions ⊆ ns) →
      AllStem D L ns (pointReferences c)
  | _, _, _, .none, _ => .nil
  | _, _, _, .some hx hy, hms =>
    List.forall_mem_append.mpr ⟨(hx.stems hL hls).mono (hms _ _ rfl).1,
      (hy.stems hL hls).mono (hms _ _ rfl).2⟩

end

end Origins

/-! ### Ranges -/

/-- The sizes that a layout gives. -/
def Layout.sizes (D : Declared) (L : Layout) : Sizes where
  image := L.image.length
  pixel := L.count
  lists := L.lists.length
  sources := (D.names .source).length
  destinations := (D.names .destination).length

/-- Everything is there. -/
def AllInRange (z : Sizes) (rs : List Reference) : Prop := ∀ r ∈ rs, r.inRange z

theorem allInRange_append {z : Sizes} {rs ts : List Reference} :
    AllInRange z (rs ++ ts) ↔ AllInRange z rs ∧ AllInRange z ts :=
  List.forall_mem_append

private theorem allInRange_singleton {z : Sizes} {c : Stmt} :
    AllInRange z (stmtsReferences [c]) ↔ AllInRange z c.references := by
  rw [stmtsReferences, stmtsReferences, List.append_nil]

section Ranges

variable {D : Declared} {L : Layout} {ls : LoopSlots} {ms : List Mention}

theorem ImageAt.lt {role : Role} {name : String} {i : Nat} (h : ImageAt D role name i) :
    i < (D.names role).length :=
  (List.findIdx?_eq_some_iff_getElem.mp h.index).1

theorem Stems.inRange {r : Reference} (h : Stems D L ms r) : r.inRange (L.sizes D) := by
  match r, h with
  | .slot (.image _), h => exact decide_eq_true h
  | .slot (.pixel _), h => exact decide_eq_true h
  | .list _, h => exact decide_eq_true h
  | .source _, ⟨_, _, hi⟩ => exact decide_eq_true hi.lt
  | .position _, _ => rfl

theorem AllStem.inRange {rs : List Reference} (h : AllStem D L ms rs) :
    AllInRange (L.sizes D) rs :=
  fun r hr => (h r hr).inRange

private theorem references_stored {op : AssignOp} {slot : Slot} {c : Expr} {z : Sizes}
    (hslot : (Reference.slot slot).inRange z) (hc : AllInRange z c.references) :
    AllInRange z (stored op slot c).references := by
  unfold stored
  split
  · exact hc
  · exact List.forall_mem_cons.mpr ⟨hslot, hc⟩

/-- The variable of a loop has a slot. -/
theorem Fresh.loops_lt {i : Nat} {name : String} (h : Fresh L ls i)
    (hls : ∀ l ∈ ls, l.2 < L.count) : ∀ l ∈ (name, i) :: ls, l.2 < L.count :=
  List.forall_mem_cons.mpr ⟨h.lt, hls⟩

theorem CodedAssign.inRange {target : Ident} {op : AssignOp} {value : RasterScript.Expr} {c : Stmt}
    (hL : L.Separate) (h : CodedAssign D L ls target op value c) (hls : ∀ l ∈ ls, l.2 < L.count) :
    AllInRange (L.sizes D) c.references := by
  cases h with
  | store hv hc =>
    have hslot := (hv.stems [] hL).inRange
    exact List.forall_mem_cons.mpr ⟨hslot, references_stored hslot (hc.stems hL hls).inRange⟩
  | storeList hi hc =>
    refine List.forall_mem_cons.mpr ⟨?_, (hc.stems hL hls).inRange⟩
    exact decide_eq_true (List.getElem?_eq_some_iff.mp hi.index).1
  | write hi hc =>
    exact List.forall_mem_cons.mpr ⟨decide_eq_true hi.lt, (hc.stems hL hls).inRange⟩

mutual

/-- The code of a statement refers to what there is. -/
theorem CodedStmt.inRange (hL : L.Separate) : ∀ {ls s cs}, CodedStmt D L ls s cs →
    (∀ l ∈ ls, l.2 < L.count) → AllInRange (L.sizes D) (stmtsReferences cs)
  | _, _, _, .assign _ _ hc, hls => allInRange_singleton.mpr (hc.inRange hL hls)
  | _, _, _, .cond ht hy hn, hls => by
    refine allInRange_singleton.mpr (allInRange_append.mpr ⟨(ht.stems hL hls).inRange, ?_⟩)
    exact allInRange_append.mpr ⟨hy.inRange hL hls, hn.inRange hL hls⟩
  | _, _, _, .loop ht hbody, hls =>
    allInRange_singleton.mpr (allInRange_append.mpr
      ⟨(ht.stems hL hls).inRange, hbody.inRange hL hls⟩)
  | _, _, _, .foreachItem hi hitems hbody, hls => by
    refine allInRange_singleton.mpr (List.forall_mem_cons.mpr ⟨decide_eq_true hi.lt, ?_⟩)
    exact allInRange_append.mpr ⟨(hitems.stems hL hls).inRange, hbody.inRange hL (hi.loops_lt hls)⟩
  | _, _, _, .foreachInt hi hlow hhigh hbody, hls => by
    refine allInRange_singleton.mpr (List.forall_mem_cons.mpr ⟨decide_eq_true hi.lt, ?_⟩)
    refine allInRange_append.mpr ⟨?_, hbody.inRange hL (hi.loops_lt hls)⟩
    exact ((hlow.stems hL hls).append (hhigh.stems hL hls)).inRange
  | _, _, _, .block hbody, hls => hbody.inRange hL hls
  | _, _, _, .breakIf ht, hls => allInRange_singleton.mpr (ht.stems hL hls).inRange
  | _, _, _, .leave, _ => fun _ h => nomatch h

theorem CodedElse.inRange (hL : L.Separate) : ∀ {ls s cs}, CodedElse D L ls s cs →
    (∀ l ∈ ls, l.2 < L.count) → AllInRange (L.sizes D) (stmtsReferences cs)
  | _, _, _, .none, _ => fun _ h => nomatch h
  | _, _, _, .some hs, hls => hs.inRange hL hls

theorem CodedStmts.inRange (hL : L.Separate) : ∀ {ls ss cs}, CodedStmts D L ls ss cs →
    (∀ l ∈ ls, l.2 < L.count) → AllInRange (L.sizes D) (stmtsReferences cs)
  | _, _, _, .nil, _ => fun _ h => nomatch h
  | _, _, _, .cons hs hss, hls => by
    rw [stmtsReferences_append]
    exact allInRange_append.mpr ⟨hs.inRange hL hls, hss.inRange hL hls⟩

end

variable (hL : L.Separate)
include hL

theorem CodedValues.inRange {values : List NamedValue} {cs : List Stmt}
    (h : CodedValues D L values cs) : AllInRange (L.sizes D) (stmtsReferences cs) := by
  induction h with
  | nil => exact fun _ h => nomatch h
  | cons _ _ hi hc _ ih =>
    refine allInRange_append.mpr ⟨List.forall_mem_cons.mpr ⟨?_, ?_⟩, ih⟩
    · exact decide_eq_true (List.getElem?_eq_some_iff.mp hi).1
    · exact (hc.stems hL (List.forall_mem_nil _)).inRange

theorem CodedInit.inRange {items : List Item} {cs : List Stmt} (h : CodedInit D L items cs) :
    AllInRange (L.sizes D) (stmtsReferences cs) := by
  induction h with
  | nil => exact fun _ h => nomatch h
  | init hvalues _ ih =>
    rw [stmtsReferences_append]
    exact allInRange_append.mpr ⟨hvalues.inRange hL, ih⟩
  | images _ ih => exact ih
  | options _ ih => exact ih
  | stmt _ ih => exact ih

theorem CodedBody.inRange {items : List Item} {cs : List Stmt} (h : CodedBody D L items cs) :
    AllInRange (L.sizes D) (stmtsReferences cs) := by
  induction h with
  | nil => exact fun _ h => nomatch h
  | stmt hs _ ih =>
    rw [stmtsReferences_append]
    exact allInRange_append.mpr ⟨hs.inRange hL (List.forall_mem_nil _), ih⟩
  | images _ ih => exact ih
  | options _ ih => exact ih
  | init _ ih => exact ih

end Ranges

/-! ### What may stand where -/

/-- Whether a mention has a meaning before the first pixel. -/
def Steady (D : Declared) : Mention → Prop
  | .name id => constant? id.name = none → D.lookup id.name ≠ some .source
  | .image id => D.lookup id.name ≠ some .source
  | .call f => ∀ p, Builtin.ofName? f.name = some (.position p) → p.isPixel = false

/-- What a script may do where. -/
def Permitted (D : Declared) : Site × Use → Prop
  | (site, .mention m) => site = .init → Steady D m
  | (site, .target id) => site.inLoop = true → D.lookup id.name ≠ some .destination
  | (site, .leave) => site.inLoop = true

section Bound

open SymbolTable (isGlobal role)

variable {b : Binding} {y : Symbol}

private theorem role_eq_source : role y = .source ↔ y.kind = .sourceImage := by
  unfold role
  cases y.kind <;> simp <;> split <;> simp

private theorem role_eq_destination : role y = .destination ↔ y.kind = .destImage := by
  unfold role
  cases y.kind <;> simp <;> split <;> simp

/-- No loop stands around a name in an `init` block. -/
theorem lexical_isGlobal {id : Ident} (h : Binding.LexicalName b .init id y) : isGlobal y := by
  rcases h.means with ⟨hv, -, -, -⟩ | ⟨-, hscope, -⟩ | ⟨-, hscope⟩
  · cases hv
  · rw [isGlobal, hscope]
    rfl
  · rw [isGlobal, hscope]
    rfl

private theorem lexical_not_source (wf : SymbolTable.WellFormed b.table) {id : Ident}
    (h : Binding.LexicalName b .init id y) : b.table.declared.lookup id.name ≠ some .source := by
  rw [← h.name, SymbolTable.lookup_declared_of_mem wf h.mem (lexical_isGlobal h)]
  intro heq
  exact h.init rfl (role_eq_source.mp (Option.some.inj heq))

/-- What the analysis lets pass is permitted. -/
theorem permitted_of_proper (wf : SymbolTable.WellFormed b.table) {u : Site × Use}
    (h : Binding.Proper b u) : Permitted b.table.declared u := by
  match u, h with
  | (site, .mention (.name id)), h =>
    rintro rfl hc
    obtain ⟨y, hy⟩ := h hc
    exact lexical_not_source wf hy
  | (site, .mention (.image id)), h =>
    rintro rfl
    obtain ⟨y, hy⟩ := h
    exact lexical_not_source wf hy
  | (site, .mention (.call f)), h =>
    rintro rfl p hp
    exact h p hp rfl
  | (site, .target id), h =>
    intro hloop
    obtain ⟨y, hy, hglobal, hname, hkind⟩ := h hloop
    rw [← hname, SymbolTable.lookup_declared_of_mem wf hy hglobal]
    intro heq
    exact hkind (role_eq_destination.mp (Option.some.inj heq))
  | (site, .leave), h => exact h

end Bound

section Places

variable {D : Declared} {L : Layout} {ls : LoopSlots} {ms : List Mention}

theorem Stems.isSteady {r : Reference} (h : Stems D L ms r) (hms : ∀ m ∈ ms, Steady D m) :
    r.isSteady := by
  match r, h with
  | .slot _, _ => rfl
  | .list _, _ => rfl
  | .source _, ⟨_, .inl ⟨hid, hc⟩, hi⟩ => exact absurd hi.declared (hms _ hid hc)
  | .source _, ⟨_, .inr hid, hi⟩ => exact absurd hi.declared (hms _ hid)
  | .position _, ⟨_, hf, hp⟩ => exact congrArg (!·) (hms _ hf _ hp)

theorem CodedValues.setsImage (hL : L.Separate) {values : List NamedValue} {cs : List Stmt}
    (h : CodedValues D L values cs)
    (hsteady : ∀ v ∈ values, ∀ m ∈ v.value.mentions, Steady D m) : ∀ s ∈ cs, s.setsImage := by
  induction h with
  | nil => exact nofun
  | cons _ _ _ hc _ ih =>
    obtain ⟨hfirst, hrest⟩ := List.forall_mem_cons.mp hsteady
    refine List.forall_mem_cons.mpr ⟨List.all_eq_true.mpr fun r hr => ?_, ih hrest⟩
    exact (hc.stems hL (List.forall_mem_nil _) r hr).isSteady hfirst

theorem CodedInit.setsImage (hL : L.Separate) {items : List Item} {cs : List Stmt}
    (h : CodedInit D L items cs)
    (huses : ∀ u ∈ items.flatMap Item.uses, Permitted D u) : ∀ s ∈ cs, s.setsImage := by
  induction h with
  | nil => exact nofun
  | @init values span items cs ds hvalues _ ih =>
    obtain ⟨hinit, hrest⟩ := List.forall_mem_append.mp huses
    refine List.forall_mem_append.mpr ⟨hvalues.setsImage hL fun v hv m hm => ?_, ih hrest⟩
    refine hinit (.init, .mention m) ?_ rfl
    exact List.mem_flatMap.mpr ⟨v, hv, List.mem_map_of_mem hm⟩
  | images _ ih => exact ih huses
  | options _ ih => exact ih (List.forall_mem_append.mp huses).2
  | stmt _ ih => exact ih (List.forall_mem_append.mp huses).2

theorem CodedAssign.placed {target : Ident} {op : AssignOp} {value : RasterScript.Expr} {c : Stmt}
    (h : CodedAssign D L ls target op value c) {inLoop : Bool}
    (htarget : inLoop = true → D.lookup target.name ≠ some .destination) : c.placed inLoop := by
  cases h with
  | store => rfl
  | storeList => rfl
  | write hi =>
    cases inLoop with
    | false => rfl
    | true => exact absurd hi.declared (htarget rfl)

private theorem stmtsPlaced_singleton {inLoop : Bool} {c : Stmt} :
    stmtsPlaced inLoop [c] = c.placed inLoop := by
  rw [stmtsPlaced, stmtsPlaced, Bool.and_true]

mutual

/-- The code of a statement leaves loops and writes destinations only where it may. -/
theorem CodedStmt.placed : ∀ (site : Site) {ls s cs}, CodedStmt D L ls s cs →
    (∀ u ∈ s.uses site, Permitted D u) → stmtsPlaced site.inLoop cs
  | _, _, _, _, .assign _ _ hc, huses => by
    rw [stmtsPlaced_singleton]
    exact hc.placed (List.forall_mem_cons.mp huses).1
  | site, _, _, _, .cond _ hy hn, huses => by
    obtain ⟨hyes, hno⟩ := List.forall_mem_append.mp (List.forall_mem_append.mp huses).2
    rw [stmtsPlaced_singleton, Stmt.placed, hy.placed site hyes, hn.placed site hno]
    rfl
  | site, _, _, _, .loop _ hbody, huses => by
    rw [stmtsPlaced_singleton]
    exact hbody.placed site.body (List.forall_mem_append.mp huses).2
  | site, _, _, _, @CodedStmt.foreachItem _ _ _ var _ _ _ _ _ _ _ _ hbody, huses => by
    rw [stmtsPlaced_singleton]
    exact hbody.placed (site.within var) (List.forall_mem_append.mp huses).2
  | site, _, _, _, @CodedStmt.foreachInt _ _ _ var _ _ _ _ _ _ _ _ _ _ _ hbody, huses => by
    rw [stmtsPlaced_singleton]
    exact hbody.placed (site.within var) (List.forall_mem_append.mp huses).2
  | site, _, _, _, .block hbody, huses => hbody.placed site huses
  | _, _, _, _, .breakIf _, huses => by
    rw [stmtsPlaced_singleton]
    exact (List.forall_mem_cons.mp huses).1
  | _, _, _, _, .leave, huses => by
    rw [stmtsPlaced_singleton]
    exact huses _ (List.mem_singleton_self _)

theorem CodedElse.placed : ∀ (site : Site) {ls s cs}, CodedElse D L ls s cs →
    (∀ u ∈ elseUses site s, Permitted D u) → stmtsPlaced site.inLoop cs
  | _, _, _, _, .none, _ => rfl
  | site, _, _, _, .some hs, huses => hs.placed site huses

theorem CodedStmts.placed : ∀ (site : Site) {ls ss cs}, CodedStmts D L ls ss cs →
    (∀ u ∈ stmtsUses site ss, Permitted D u) → stmtsPlaced site.inLoop cs
  | _, _, _, _, .nil, _ => rfl
  | site, _, _, _, .cons hs hss, huses => by
    obtain ⟨hfirst, hrest⟩ := List.forall_mem_append.mp huses
    rw [stmtsPlaced_append, hs.placed site hfirst, hss.placed site hrest]
    rfl

end

theorem CodedBody.placed {items : List Item} {cs : List Stmt} (h : CodedBody D L items cs)
    (huses : ∀ u ∈ items.flatMap Item.uses, Permitted D u) : stmtsPlaced false cs := by
  induction h with
  | nil => rfl
  | stmt hs _ ih =>
    obtain ⟨hfirst, hrest⟩ := List.forall_mem_append.mp huses
    rw [stmtsPlaced_append, ih hrest, Bool.and_true]
    exact hs.placed .top hfirst
  | images _ ih => exact ih huses
  | options _ ih => exact ih (List.forall_mem_append.mp huses).2
  | init _ ih => exact ih (List.forall_mem_append.mp huses).2

end Places

/-- The code of a script that does only what it may is code that a machine can run. -/
theorem CodeOf.wellFormed {D : Declared} {L : Layout} {script : Script} {c : Code}
    (h : CodeOf D L script c) (huses : ∀ u ∈ script.uses, Permitted D u)
    (himages : (D.names .source ++ D.names .destination).Nodup) : c.WellFormed := by
  have hsizes : c.sizes = L.sizes D := by
    simp only [sizes, Layout.sizes, h.sources, h.destinations, h.imageSlots, h.pixelSlots,
      h.listSlots]
  refine ⟨?_, ?_, h.init.setsImage h.separate huses, h.body.placed huses, ?_⟩
  · rw [hsizes]
    exact h.init.inRange h.separate
  · rw [hsizes]
    exact h.body.inRange h.separate
  · rwa [h.sources, h.destinations]

end RasterScript.Code
