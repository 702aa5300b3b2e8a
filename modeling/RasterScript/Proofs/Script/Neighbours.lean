import RasterScript.Proofs.Script.Acceptance

/-! Items do not depend on their neighbours. Where tokens are cut in two after the end of an item,
cutting them into chunks gives the chunks of both parts, and every chunk is read as if it stood
alone. Main statement: what is read of two parts, and what is at fault in them, is what is read and
at fault in each. -/
namespace RasterScript.Script

open Script.Derivation
open Token (Kind)

variable {A B ts c : List Token} {t : Token} {d : Nat}

/-- Whether a token of this kind can be the last of an item. -/
def closesItem (k : Kind) : Bool := k.isTerminator || k = .rbrace

/-- Tokens that end where an item can end: outside of braces, with a terminator or a brace. A brace
that closes nothing does not count. -/
def Sealed (ts : List Token) : Prop :=
  ts.foldl depthAfter 0 = 0 ∧ ∀ t ∈ ts.getLast?, closesItem t.kind

instance (ts : List Token) : Decidable (Sealed ts) := instDecidableAnd

/-! ### The seam -/

/-- Tokens that do not go on with an `else` do not change whether one follows before them. -/
theorem elseFollows_append (hB : elseFollows B = false) (A : List Token) :
    elseFollows (A ++ B) = elseFollows A := by
  rw [elseFollows, List.find?_append]
  cases hfind : A.find? fun t => t.kind ≠ .newline with
  | some t => rw [elseFollows, hfind, Option.some_or]
  | none =>
    rw [Option.none_or, elseFollows, hfind]
    exact hB

theorem chunksAt_ne_nil (d : Nat) (t : Token) (ts : List Token) : chunksAt d (t :: ts) ≠ [] := by
  intro hnil
  have hflat := flatten_chunksAt d (t :: ts)
  rw [hnil] at hflat
  cases hflat

private theorem depthAfter_of_endsItem (h : endsItem d t) : depthAfter d t = 0 := by
  cases hk : t.kind <;> simp_all [endsItem, depthAfter]

private theorem endsItem_of_closesItem (hk : closesItem t.kind) (hd : depthAfter d t = 0) :
    endsItem d t := by
  cases ht : t.kind <;> simp_all [closesItem, Kind.isTerminator, endsItem, depthAfter]

/-- After a token that ends an item the rest is cut on its own. -/
theorem chunksAt_seam (hB : elseFollows B = false) (t : Token) (A : List Token)
    (hdepth : (t :: A).foldl depthAfter d = 0)
    (hlast : ∀ u ∈ (t :: A).getLast?, closesItem u.kind) :
    chunksAt d (t :: A ++ B) = chunksAt d (t :: A) ++ chunksAt 0 B := by
  induction A generalizing t d with
  | nil =>
    have hzero : depthAfter d t = 0 := hdepth
    have hends : endsItem d t := endsItem_of_closesItem (hlast t rfl) hzero
    simp only [List.cons_append, List.nil_append, chunksAt, hends, hB, hzero]
    rfl
  | cons u A ih =>
    have hlater := ih u hdepth (by simpa [List.getLast?_cons] using hlast)
    rw [List.cons_append, chunksAt, chunksAt, elseFollows_append hB, hlater]
    split
    · rfl
    · obtain ⟨c, cs, hcs⟩ := List.exists_cons_of_ne_nil (chunksAt_ne_nil (depthAfter d t) u A)
      simp only [hcs, List.cons_append]

private theorem chunks_append (hA : Sealed A) (hB : elseFollows B = false) :
    chunks (A ++ B) = chunks A ++ chunks B := by
  cases A with
  | nil => rfl
  | cons t A => exact chunksAt_seam hB t A hA.1 hA.2

private theorem readItems_append (dialect : Dialect) (hA : Sealed A) (hB : elseFollows B = false) :
    readItems dialect (A ++ B) = readItems dialect A ++ readItems dialect B := by
  simp only [readItems, chunks_append hA hB, List.filter_append, List.map_append]

/-! ### Chunks on their own -/

/-- Where an `else` comes first, only line ends stand before it. -/
theorem elseFollows_split (h : elseFollows ts) : ∃ ends o rest, ts = ends ++ o :: rest ∧
    (∀ n ∈ ends, n.kind = .newline) ∧ o.kind = .kwElse := by
  obtain ⟨o, hfind, ho⟩ := Option.map_eq_some_iff.mp (of_decide_eq_true h)
  obtain ⟨-, ends, rest, rfl, hends⟩ := List.find?_eq_some_iff_append.mp hfind
  exact ⟨ends, o, rest, rfl, by simpa using hends, ho⟩

private theorem isPrefix_of_attach {xs : List Token} {cs ds : List (List Token)}
    (h : attach xs ds = c :: cs) : xs <+: c := by
  induction xs generalizing c cs with
  | nil => exact List.nil_prefix
  | cons x xs ih =>
    rw [attach] at h
    split at h
    · next hnil =>
      cases xs with
      | nil =>
        cases h
        exact List.prefix_rfl
      | cons y xs =>
        rw [attach] at hnil
        split at hnil <;> cases hnil
    · next hcons =>
      cases h
      exact List.cons_prefix_cons.mpr ⟨rfl, ih hcons⟩

/-- An `else` that comes first stands in the first chunk. -/
theorem elseFollows_first {cs : List (List Token)} (h : elseFollows ts)
    (hcut : chunksAt d ts = c :: cs) : elseFollows c := by
  obtain ⟨ends, o, rest, rfl, hends, ho⟩ := elseFollows_split h
  rw [chunksAt_newlines hends ho] at hcut
  obtain ⟨more, rfl⟩ := isPrefix_of_attach hcut
  rw [List.append_assoc]
  exact elseFollows_newlines hends ho

/-- The first chunk is cut the same without what follows it, which is cut on its own. -/
theorem chunksAt_first {cs : List (List Token)} (hcut : chunksAt d ts = c :: cs) :
    chunksAt d c = [c] ∧ ∃ rest, chunksAt 0 rest = cs := by
  induction ts generalizing d c with
  | nil => cases hcut
  | cons t ts ih =>
    rw [chunksAt] at hcut
    split at hcut
    · next hends =>
      cases hcut
      rw [depthAfter_of_endsItem (Bool.and_eq_true_iff.mp hends).1]
      refine ⟨?_, ts, rfl⟩
      rw [chunksAt]
      split <;> rfl
    · next hends =>
      split at hcut
      · cases hcut
        refine ⟨?_, [], rfl⟩
        rw [chunksAt]
        split <;> rfl
      · next c' cs' hlater =>
        cases hcut
        obtain ⟨hfirst, hrest⟩ := ih hlater
        refine ⟨?_, hrest⟩
        -- A token that could end the chunk is followed by an `else`, also inside the chunk.
        have hgoes : ¬ (endsItem d t && !elseFollows c') := by
          intro hboth
          obtain ⟨ht, hno⟩ := Bool.and_eq_true_iff.mp hboth
          have hfollows : elseFollows ts := by simpa [ht] using hends
          rw [elseFollows_first hfollows hlater] at hno
          cases hno
        rw [chunksAt, if_neg hgoes, hfirst]

/-- A chunk is one chunk, also without its neighbours. -/
theorem chunks_of_mem (hc : c ∈ chunks ts) : chunks c = [c] := by
  suffices hall : ∀ (cs : List (List Token)) (ts : List Token), chunksAt 0 ts = cs →
      ∀ c ∈ cs, chunksAt 0 c = [c] from hall _ ts rfl c hc
  intro cs
  induction cs with
  | nil => simp
  | cons c cs ih =>
    intro ts hcut
    obtain ⟨hfirst, rest, hrest⟩ := chunksAt_first hcut
    exact List.forall_mem_cons.mpr ⟨hfirst, ih rest hrest⟩

/-- What is read of one chunk: nothing if it is blank, and otherwise one item or one fault. -/
theorem readItems_chunk (dialect : Dialect) (hc : chunks c = [c]) :
    readItems dialect c =
      if c.all Token.isTerminator then [] else [readItem (closed dialect c)] := by
  rw [readItems, hc, List.filter_singleton]
  cases c.all Token.isTerminator <;> rfl

/-- Tokens are read chunk by chunk. -/
theorem readItems_eq_flatMap (dialect : Dialect) (ts : List Token) :
    readItems dialect ts = (chunks ts).flatMap (readItems dialect) := by
  have halone := fun c (hc : c ∈ chunks ts) => readItems_chunk dialect (chunks_of_mem hc)
  rw [List.flatMap_congr halone, readItems]
  generalize chunks ts = cs
  induction cs with
  | nil => rfl
  | cons c cs ih =>
    rw [List.flatMap_cons, List.filter_cons]
    cases c.all Token.isTerminator with
    | true => exact ih
    | false => exact congrArg (_ :: ·) ih

/-! ### Both parts of a text -/

/-- The items that are read of tokens. -/
def itemsOf (dialect : Dialect) (ts : List Token) : List Item :=
  (readItems dialect ts).filterMap okItem?

/-- What is reported of tokens. -/
def reportsOf (dialect : Dialect) (ts : List Token) : List Diagnostic :=
  ((readItems dialect ts).filterMap itemFault?).map Fault.diagnostic

private theorem itemsOf_append (dialect : Dialect) (hA : Sealed A) (hB : elseFollows B = false) :
    itemsOf dialect (A ++ B) = itemsOf dialect A ++ itemsOf dialect B := by
  simp only [itemsOf, readItems_append dialect hA hB, List.filterMap_append]

private theorem reportsOf_append (dialect : Dialect) (hA : Sealed A) (hB : elseFollows B = false) :
    reportsOf dialect (A ++ B) = reportsOf dialect A ++ reportsOf dialect B := by
  simp only [reportsOf, readItems_append dialect hA hB, List.filterMap_append, List.map_append]

/-- The syntax errors of a text are those of its tokens. -/
theorem syntaxErrors_eq (text : String) (dialect : Dialect) :
    (parse text dialect).diagnostics.filter (fun d => d.code = some "E0002") =
      reportsOf dialect ((Token.scan text).frame dialect).tokens := by
  have hlexical : (((Token.scan text).frame dialect).faults.map Token.Fault.diagnostic).filter
      (fun d => d.code = some "E0002") = [] := by
    simp only [List.filter_eq_nil_iff, List.mem_map]
    rintro _ ⟨⟨what, span⟩, -, rfl⟩
    cases what <;> simp [Token.Fault.diagnostic, Token.Fault.code]
  have hsyntax : ∀ d ∈ reportsOf dialect ((Token.scan text).frame dialect).tokens,
      decide (d.code = some "E0002") = true := by
    simp only [reportsOf, List.mem_map]
    rintro _ ⟨f, -, rfl⟩
    rfl
  rw [parse, List.filter_append, hlexical, List.nil_append]
  exact List.filter_eq_self.mpr hsyntax

/-- Cut after the end of an item, unless an `else` goes on with it, both parts have the chunks, the
items and the syntax errors that they have on their own. No chunk is empty, the chunks make up the
tokens, and each is read as if it stood alone: as nothing if it is blank, and otherwise as one item
or with one error. -/
theorem neighbours_do_not_matter (dialect : Dialect) :
    (∀ A B, Sealed A → elseFollows B = false →
      chunks (A ++ B) = chunks A ++ chunks B ∧
      itemsOf dialect (A ++ B) = itemsOf dialect A ++ itemsOf dialect B ∧
      reportsOf dialect (A ++ B) = reportsOf dialect A ++ reportsOf dialect B) ∧
    (∀ ts, (∀ c ∈ chunks ts, c ≠ []) ∧ (chunks ts).flatten = ts ∧
      itemsOf dialect ts = (chunks ts).flatMap (itemsOf dialect) ∧
      reportsOf dialect ts = (chunks ts).flatMap (reportsOf dialect) ∧
      ∀ c ∈ chunks ts,
        if c.all Token.isTerminator then itemsOf dialect c = [] ∧ reportsOf dialect c = []
        else (∃ i, itemsOf dialect c = [i] ∧ reportsOf dialect c = []) ∨
          ∃ d, itemsOf dialect c = [] ∧ reportsOf dialect c = [d] ∧ d.code = some "E0002") ∧
    ∀ text A B, ((Token.scan text).frame dialect).tokens = A ++ B → Sealed A →
      elseFollows B = false →
      (parse text dialect).script.items = itemsOf dialect A ++ itemsOf dialect B ∧
      (parse text dialect).diagnostics.filter (fun d => d.code = some "E0002") =
        reportsOf dialect A ++ reportsOf dialect B := by
  refine ⟨?_, ?_, ?_⟩
  · intro A B hA hB
    exact ⟨chunks_append hA hB, itemsOf_append dialect hA hB, reportsOf_append dialect hA hB⟩
  · intro ts
    refine ⟨fun c hc => ne_nil_of_mem_chunksAt hc, flatten_chunksAt 0 ts, ?_, ?_, ?_⟩
    · rw [itemsOf, readItems_eq_flatMap, List.filterMap_flatMap]
      rfl
    · rw [reportsOf, readItems_eq_flatMap, List.filterMap_flatMap, List.map_flatMap]
      rfl
    · intro c hc
      rw [itemsOf, reportsOf, readItems_chunk dialect (chunks_of_mem hc)]
      split
      · exact ⟨rfl, rfl⟩
      · cases readItem (closed dialect c) with
        | ok i => exact .inl ⟨i, rfl, rfl⟩
        | error f => exact .inr ⟨_, rfl, rfl, rfl⟩
  · intro text A B htokens hA hB
    refine ⟨?_, ?_⟩
    · rw [← itemsOf_append dialect hA hB, ← htokens]
      rfl
    · rw [syntaxErrors_eq, htokens, reportsOf_append dialect hA hB]

/-- An unclosed group and a brace that closes nothing, before a statement. -/
def strayBrace : String := "a = (1;\n\x7d\nb = 2;\n"

theorem strayBrace_stays_alone :
    let tokens := ((Token.scan strayBrace).frame .standard).tokens
    Sealed (tokens.take 6) ∧ elseFollows (tokens.drop 6) = false ∧
      (parse strayBrace .standard).script.items =
        itemsOf .standard (tokens.take 6) ++ itemsOf .standard (tokens.drop 6) ∧
      (itemsOf .standard (tokens.take 6)).length = 0 ∧
      (reportsOf .standard (tokens.take 6)).map (·.message) =
        ["unexpected ';'", "unexpected '\x7d'"] ∧
      (itemsOf .standard (tokens.drop 6)).length = 1 ∧
      reportsOf .standard (tokens.drop 6) = [] := by
  have hsealed : Sealed (((Token.scan strayBrace).frame .standard).tokens.take 6) := by
    decide +kernel
  have hnot : elseFollows (((Token.scan strayBrace).frame .standard).tokens.drop 6) = false := by
    decide +kernel
  have hitems := ((neighbours_do_not_matter .standard).2.2 strayBrace _ _
    (List.take_append_drop 6 _).symm hsealed hnot).1
  exact ⟨hsealed, hnot, hitems, by decide +kernel, by decide +kernel, by decide +kernel,
    by decide +kernel⟩

end RasterScript.Script
