import Mathlib.Data.List.Basic
import Mathlib.Data.Option.Basic
import PhpTypes.Php.Statements

/-!
# What statements are read from

Whatever declaration is read, and however deep it stands in other ones, it is read from the tokens
of the program: its head starts where a token starts, and a token opens the list of its parameters
(`readProgram_readFrom`). Every reader keeps this (`Reading.Reads`), and so does the grouping of
tokens, which reads the contents of braces when it closes them.
-/

namespace PhpTypes.Php

/-- The head is read from tokens: it starts where one of them starts, and one of them opens the list
of its parameters. -/
structure RoutineHead.ReadFrom (tokens : List Token) (head : RoutineHead) : Prop where
  start_mem : ∃ t ∈ tokens, t.start = head.start
  parens_mem : ∃ t ∈ tokens, t.text = "("

/-- All heads in the statement, at whatever depth, are read from tokens. -/
inductive Statement.ReadFrom (tokens : List Token) : Statement → Prop
  | imports {list : ImportList} : ReadFrom tokens (.imports list)
  | space {name : Option String} {body : List Statement} (hbody : ∀ s ∈ body, ReadFrom tokens s) :
    ReadFrom tokens (.space name body)
  | block {body : List Statement} (hbody : ∀ s ∈ body, ReadFrom tokens s) :
    ReadFrom tokens (.block body)
  | function {head : RoutineHead} {body : List Statement} (hhead : head.ReadFrom tokens)
    (hbody : ∀ s ∈ body, ReadFrom tokens s) : ReadFrom tokens (.function head body)
  | classLike {kind : ClassKind} {name : String} {members : List Member}
    (hhead : ∀ head body, .method head body ∈ members → head.ReadFrom tokens)
    (hbody : ∀ head body, .method head body ∈ members → ∀ s ∈ body, ReadFrom tokens s) :
    ReadFrom tokens (.classLike kind name members)
  | compound {kind : Compound} {body : List Statement} (hbody : ∀ s ∈ body, ReadFrom tokens s) :
    ReadFrom tokens (.compound kind body)
  | other : ReadFrom tokens .other

/-- The item is made of tokens, and the statements in it are read from them. -/
inductive Item.Over (tokens : List Token) : Item → Prop
  | token {t : Token} (h : t ∈ tokens) : Over tokens (.token t)
  | group {bracket : Token} {items : List Item} {code : List Statement}
    (hbracket : bracket ∈ tokens) (hitems : ∀ item ∈ items, Over tokens item)
    (hcode : ∀ s ∈ code, s.ReadFrom tokens) :
    Over tokens (.group bracket items code)

variable {tokens : List Token} {items rest : List Item} {item : Item} {start : Nat}

/-! ## Items -/

namespace Item.Over

/-- An item starts where one of its tokens starts. -/
theorem start_mem (h : item.Over tokens) : ∃ t ∈ tokens, t.start = item.start := by
  cases h with
  | token h => exact ⟨_, h, rfl⟩
  | group hbracket => exact ⟨_, hbracket, rfl⟩

/-- A group in parentheses has been opened by a token. -/
theorem parens_mem (h : item.Over tokens) (hparens : item.isParens = true) :
    ∃ t ∈ tokens, t.text = "(" := by
  cases h with
  | token => cases hparens
  | group hbracket => exact ⟨_, hbracket, beq_iff_eq.mp hparens⟩

/-- The items of a group are made of tokens themselves. -/
theorem inner (h : item.Over tokens) : ∀ i ∈ item.inner, i.Over tokens := by
  cases h with
  | token => exact List.forall_mem_nil _
  | group hbracket hitems => exact hitems

/-- The statements in braces are read from tokens. -/
theorem code (h : item.Over tokens) : ∀ s ∈ item.code, s.ReadFrom tokens := by
  cases h with
  | token => exact List.forall_mem_nil _
  | group hbracket hitems hcode => exact hcode

end Item.Over

/-! ## Parts of declarations -/

/-- Items behind the one that is looked for are left. -/
theorem dropThrough_subset (p : Item → Bool) (items : List Item) : dropThrough p items ⊆ items :=
  fun _ h => (List.dropWhile_sublist _).subset (List.mem_of_mem_drop h)

/-- Items behind modifiers are left. -/
theorem dropModifiers_subset (items : List Item) : dropModifiers items ⊆ items :=
  (List.dropWhile_sublist _).subset

/-- A head starts where it is said to, and has a list of parameters. -/
theorem readHead_eq_some {head : RoutineHead} (h : readHead start items = some (head, rest)) :
    head.start = start ∧ (∃ item ∈ items, item.isParens = true) ∧ rest ⊆ items := by
  rw [readHead] at h
  dsimp only at h
  split at h
  · next nameItem params others hitems =>
    obtain ⟨name, -, h⟩ := Option.bind_eq_some_iff.mp h
    obtain ⟨_, hguard, h⟩ := Option.bind_eq_some_iff.mp h
    obtain ⟨rfl, rfl⟩ := Prod.mk.inj (Option.some.inj h)
    have hparens : params.isParens = true := (Option.guard_eq_some' _).mp hguard
    have hsubset : nameItem :: params :: others ⊆ items :=
      hitems ▸ (List.dropWhile_sublist _).subset
    refine ⟨rfl, ⟨params, hsubset (by simp), hparens⟩, fun i hi => hsubset ?_⟩
    exact List.mem_cons_of_mem _ (List.mem_cons_of_mem _ ((List.dropWhile_sublist _).subset hi))
  · cases h

/-- Items behind a body are left. -/
theorem readBody_subset (items : List Item) : (readBody items).2 ⊆ items := by
  cases items with
  | nil => exact List.Subset.refl _
  | cons body rest => exact List.subset_cons_self body rest

/-- The statements of a body are read from tokens. -/
theorem readBody_readFrom (h : ∀ item ∈ items, item.Over tokens) :
    ∀ s ∈ (readBody items).1, s.ReadFrom tokens := by
  cases items with
  | nil => exact List.forall_mem_nil _
  | cons body rest => exact (h body List.mem_cons_self).code

/-- The head of a routine and its body are read from tokens, if the items behind its keyword are made
of them. -/
theorem readFrom_of_readHead {head : RoutineHead}
    (h : readHead start items.tail = some (head, rest)) (hitems : ∀ item ∈ items, item.Over tokens)
    (hstart : ∃ t ∈ tokens, t.start = start) :
    (head.ReadFrom tokens ∧ ∀ s ∈ (readBody rest).1, s.ReadFrom tokens) ∧
      (readBody rest).2 ⊆ items := by
  obtain ⟨rfl, ⟨params, hmem, hparens⟩, hrest⟩ := readHead_eq_some h
  have htail : items.tail ⊆ items := (List.tail_sublist _).subset
  have hsubset : rest ⊆ items := List.Subset.trans hrest htail
  have hhead : head.ReadFrom tokens :=
    ⟨hstart, (hitems params (htail hmem)).parens_mem hparens⟩
  exact ⟨⟨hhead, readBody_readFrom fun i hi => hitems i (hsubset hi)⟩,
    List.Subset.trans (readBody_subset rest) hsubset⟩

/-! ## Members of classes -/

/-- The method and its body are read from tokens. -/
def Member.ReadFrom (tokens : List Token) : Member → Prop
  | .method head body => head.ReadFrom tokens ∧ ∀ s ∈ body, s.ReadFrom tokens
  | .other => True

/-- One member is read from tokens, and items behind it are left. -/
theorem readMember_readFrom (h : ∀ item ∈ items, item.Over tokens) :
    (readMember items).1.ReadFrom tokens ∧ (readMember items).2 ⊆ items := by
  rw [readMember]
  dsimp only
  split
  · next result hresult =>
    obtain ⟨keyword, hkeyword, hresult⟩ := Option.bind_eq_some_iff.mp hresult
    obtain ⟨-, -, hresult⟩ := Option.bind_eq_some_iff.mp hresult
    obtain ⟨⟨head, rest⟩, hhead, hpure⟩ := Option.bind_eq_some_iff.mp hresult
    obtain rfl := Option.some.inj hpure
    have hsubset : dropModifiers items ⊆ items := dropModifiers_subset items
    have hstart : ∃ t ∈ tokens, t.start = (items.head?.map Item.start).getD 0 := by
      cases items with
      | nil => cases hkeyword
      | cons first others => exact (h first List.mem_cons_self).start_mem
    obtain ⟨hread, hleft⟩ := readFrom_of_readHead hhead (fun i hi => h i (hsubset hi)) hstart
    exact ⟨hread, List.Subset.trans hleft hsubset⟩
  · exact ⟨trivial, List.Subset.trans (dropThrough_subset ..) (dropModifiers_subset items)⟩

/-- All members of a class are read from tokens. -/
theorem readMembers_readFrom (h : ∀ item ∈ items, item.Over tokens) :
    ∀ member ∈ readMembers items, member.ReadFrom tokens := by
  fun_induction readMembers items with
  | case1 => exact List.forall_mem_nil _
  | case2 items _ result _ ih =>
    obtain ⟨hmember, hrest⟩ := readMember_readFrom h
    exact List.forall_mem_cons.mpr ⟨hmember, ih fun i hi => h i (hrest hi)⟩
  | case3 items _ result =>
    exact List.forall_mem_singleton.mpr (readMember_readFrom h).1

namespace Reading

/-! ## Elements -/

/-- The statement of a complete element is read from tokens. -/
def Element.ReadFrom (tokens : List Token) : Element → Prop
  | .complete s => s.ReadFrom tokens
  | _ => True

/-- What a reader makes of items: an element that is read from tokens, and items that are left. -/
structure Reads (tokens : List Token) (items : List Item) (result : Element × List Item) :
    Prop where
  element : result.1.ReadFrom tokens
  left : result.2 ⊆ items

namespace Reads

/-- A simple statement. -/
theorem simple (hleft : rest ⊆ items) : Reads tokens items (.complete .other, rest) :=
  ⟨.other, hleft⟩

/-- A reader may skip items first. -/
theorem of_subset {result : Element × List Item} (h : Reads tokens rest result)
    (hsubset : rest ⊆ items) : Reads tokens items result :=
  ⟨h.element, List.Subset.trans h.left hsubset⟩

/-- A reader may go one of two ways. -/
theorem ite {c : Prop} [Decidable c] {result result' : Element × List Item}
    (hthen : Reads tokens items result) (helse : Reads tokens items result') :
    Reads tokens items (if c then result else result') := by
  split
  · exact hthen
  · exact helse

/-- A reader that gives up may be replaced by another one. -/
theorem getD {result? : Option (Element × List Item)} {default : Element × List Item}
    (h : ∀ result, result? = some result → Reads tokens items result)
    (hdefault : Reads tokens items default) : Reads tokens items (result?.getD default) := by
  cases result? with
  | none => exact hdefault
  | some result => exact h result rfl

end Reads

/-- A statement with a body in braces, such as `if` or `while`, is read from tokens; one whose body
follows later has read nothing yet. -/
theorem readCompound_reads (kind : Compound) (keyword : Item)
    (h : ∀ item ∈ items, item.Over tokens) :
    Reads tokens items (readCompound kind keyword items) := by
  unfold readCompound
  dsimp only
  split
  · exact ⟨.compound (List.forall_mem_nil _), List.nil_subset _⟩
  · next first others hrest =>
    -- A condition in parentheses may have been dropped.
    have hsubset : first :: others ⊆ items := by
      rw [← hrest]
      split
      · exact List.Subset.refl _
      · split
        · exact List.subset_cons_self ..
        · exact List.Subset.refl _
    have hothers : others ⊆ items := List.Subset.trans (List.subset_cons_self first others) hsubset
    rw [hrest]
    refine .ite ⟨.compound (h first (hsubset List.mem_cons_self)).code, hothers⟩ ?_
    refine .ite ⟨.compound (List.forall_mem_nil _), hothers⟩ ?_
    refine .ite ⟨?_, hothers⟩ ⟨trivial, hsubset⟩
    dsimp only
    split <;> trivial

/-- Classes, interfaces, traits and enumerations are read from tokens with all their members. -/
theorem readClassLike_reads {result : Element × List Item}
    (hread : readClassLike items = some result) (h : ∀ item ∈ items, item.Over tokens) :
    Reads tokens items result := by
  rw [readClassLike] at hread
  dsimp only at hread
  split at hread
  · next keyword nameItem others hitems =>
    obtain ⟨kind, -, hread⟩ := Option.bind_eq_some_iff.mp hread
    obtain ⟨name, -, hread⟩ := Option.bind_eq_some_iff.mp hread
    obtain ⟨-, -, hbody⟩ := Option.bind_eq_some_iff.mp hread
    split at hbody
    · next body left hleft =>
      obtain rfl := Option.some.inj hbody
      -- Modifiers are dropped, then the keyword and the name are taken.
      have htaken : keyword :: nameItem :: others ⊆ items :=
        hitems ▸ (List.dropWhile_sublist _).subset
      have hothers : others ⊆ items := fun i hi =>
        htaken (List.mem_cons_of_mem _ (List.mem_cons_of_mem _ hi))
      have hsubset : body :: left ⊆ items :=
        List.Subset.trans (hleft ▸ (List.dropWhile_sublist _).subset) hothers
      have hmembers : ∀ member ∈ readMembers (body.inner.filter fun i => !i.isKind .openTag),
          member.ReadFrom tokens :=
        readMembers_readFrom fun i hi =>
          (h body (hsubset List.mem_cons_self)).inner i (List.mem_of_mem_filter hi)
      refine ⟨.classLike (fun head body hmem => (hmembers _ hmem).1) fun head body hmem =>
        (hmembers _ hmem).2, List.Subset.trans (List.subset_cons_self ..) hsubset⟩
    · cases hbody
  · cases hread

/-- A function is read from tokens with its body, wherever its attributes start. -/
theorem readFunction_reads {result : Element × List Item}
    (hread : readFunction start items = some result) (h : ∀ item ∈ items, item.Over tokens)
    (hstart : ∃ t ∈ tokens, t.start = start) :
    Reads tokens items result := by
  obtain ⟨first, -, hread⟩ := Option.bind_eq_some_iff.mp hread
  obtain ⟨-, -, hread⟩ := Option.bind_eq_some_iff.mp hread
  obtain ⟨⟨head, rest⟩, hhead, hpure⟩ := Option.bind_eq_some_iff.mp hread
  obtain rfl := Option.some.inj hpure
  obtain ⟨⟨hread, hbody⟩, hleft⟩ := readFrom_of_readHead hhead h hstart
  exact ⟨.function hread hbody, hleft⟩

/-- A namespace in braces is read from tokens; one without braces has read nothing yet. -/
theorem readSpace_reads {result : Element × List Item} (hread : readSpace items = some result)
    (h : ∀ item ∈ items, item.Over tokens) : Reads tokens items result := by
  unfold readSpace at hread
  split at hread
  · cases hread
  · next first rest =>
    have hrest : rest ⊆ first :: rest := List.subset_cons_self first rest
    split at hread
    · obtain rfl := Option.some.inj hread
      exact ⟨.space (h first List.mem_cons_self).code, hrest⟩
    · split at hread
      · next name body others _ =>
        have hothers : others ⊆ first :: body :: others :=
          List.Subset.trans (List.subset_cons_self body others) hrest
        split at hread
        · obtain rfl := Option.some.inj hread
          exact ⟨.space (h body (by simp)).code, hothers⟩
        · split at hread
          · obtain rfl := Option.some.inj hread
            exact ⟨trivial, hothers⟩
          · cases hread
      · obtain rfl := Option.some.inj hread
        exact ⟨trivial, List.nil_subset _⟩
      · cases hread

/-- Items behind the label of a case are left. -/
theorem dropCaseLabel_subset (waiting : Nat) (items : List Item) :
    dropCaseLabel waiting items ⊆ items := by
  induction items generalizing waiting with
  | nil => exact List.Subset.refl _
  | cons first rest ih =>
    have hrest : rest ⊆ first :: rest := List.subset_cons_self first rest
    unfold dropCaseLabel
    split
    · exact hrest
    · split
      · exact List.Subset.trans (ih _) hrest
      · split
        · cases waiting with
          | zero => exact hrest
          | succ n => exact List.Subset.trans (ih n) hrest
        · exact List.Subset.trans (ih waiting) hrest

/-- Whatever the first word of an element says, the element is read from tokens. -/
theorem readWorded_reads {first : Item} (hstart : ∃ t ∈ tokens, t.start = start)
    (h : ∀ item ∈ first :: rest, item.Over tokens) :
    Reads tokens (first :: rest) (readWorded start first rest) := by
  have hrest : ∀ item ∈ rest, item.Over tokens := (List.forall_mem_cons.mp h).2
  have hsubset : rest ⊆ first :: rest := List.subset_cons_self first rest
  have hthrough : dropThrough Item.isTerminator rest ⊆ first :: rest :=
    List.Subset.trans (dropThrough_subset ..) hsubset
  unfold readWorded
  dsimp only
  split
  · next kind _ => exact (readCompound_reads kind first hrest).of_subset hsubset
  · refine .ite ⟨trivial, hthrough⟩ ?_
    refine .ite (.simple (List.Subset.trans (dropCaseLabel_subset 0 rest) hsubset)) ?_
    refine .ite (.getD (fun result hresult => ?_) (.simple hthrough)) ?_
    · exact (readSpace_reads hresult hrest).of_subset hsubset
    refine .ite ⟨.imports, hthrough⟩ ?_
    refine .ite (.simple (List.Subset.trans (List.drop_subset 1 rest) hsubset)) ?_
    refine .getD (fun result hresult => ?_) (.simple hthrough)
    cases hfunction : readFunction start (first :: rest) with
    | some found =>
      rw [hfunction] at hresult
      obtain rfl := Option.some.inj hresult
      exact readFunction_reads hfunction h hstart
    | none =>
      rw [hfunction] at hresult
      exact readClassLike_reads hresult h

/-- An element is read from tokens, whether it starts with a word, a group or a sign. -/
theorem readElement_reads {first : Item} (h : ∀ item ∈ first :: rest, item.Over tokens) :
    Reads tokens (first :: rest) (readElement first rest) := by
  unfold readElement
  dsimp only
  split
  · exact .simple (List.nil_subset _)
  · next item others hdeclared =>
    have hsubset : item :: others ⊆ first :: rest :=
      hdeclared ▸ (List.dropWhile_sublist _).subset
    have hothers : others ⊆ first :: rest :=
      List.Subset.trans (List.subset_cons_self item others) hsubset
    have hitems : ∀ i ∈ item :: others, i.Over tokens := fun i hi => h i (hsubset hi)
    refine .ite (.simple hothers) ?_
    refine .ite ⟨.block (hitems item List.mem_cons_self).code, hothers⟩ ?_
    refine .ite ?_ (.simple (List.Subset.trans (dropThrough_subset ..) hothers))
    exact (readWorded_reads (h first List.mem_cons_self).start_mem hitems).of_subset hsubset

/-- All elements of a piece of code are read from its tokens. -/
theorem elements_readFrom (h : ∀ item ∈ items, item.Over tokens) :
    ∀ element ∈ elements items, element.ReadFrom tokens := by
  fun_induction elements items with
  | case1 => exact List.forall_mem_nil _
  | case2 => exact List.forall_mem_nil _
  | case3 first rest _ result _ ih =>
    have hread := readElement_reads h
    exact List.forall_mem_cons.mpr ⟨hread.element, ih fun i hi => h i (hread.left hi)⟩
  | case4 first rest _ result =>
    exact List.forall_mem_singleton.mpr (readElement_reads h).element

/-! ## Nesting -/

/-- All statements of the open bodies are read from tokens. -/
def Levels.ReadFrom (tokens : List Token) (l : Levels) : Prop :=
  (∀ s ∈ l.inner, s.ReadFrom tokens) ∧ ∀ body ∈ l.outer, ∀ s ∈ body, s.ReadFrom tokens

/-- A body that is given to its statement stays read from tokens. -/
theorem Levels.ReadFrom.wrap {l : Levels} (h : l.ReadFrom tokens) (kind : Compound) :
    (l.wrap kind).ReadFrom tokens := by
  obtain ⟨inner, outer⟩ := l
  obtain ⟨hinner, houter⟩ := h
  cases outer with
  | nil => exact ⟨List.forall_mem_singleton.mpr (.compound hinner), houter⟩
  | cons next outer =>
    obtain ⟨hnext, houter⟩ := List.forall_mem_cons.mp houter
    exact ⟨List.forall_mem_cons.mpr ⟨.compound hinner, hnext⟩, houter⟩

/-- A body that ends here leaves the statements behind it to the body around. -/
theorem Levels.ReadFrom.close {l : Levels} (h : l.ReadFrom tokens) :
    Levels.ReadFrom tokens { inner := [], outer := l.inner :: l.outer } :=
  ⟨List.forall_mem_nil _, List.forall_mem_cons.mpr h⟩

/-- Nesting one more element in front keeps all statements read from tokens. -/
theorem nest_readFrom {e : Element} (he : e.ReadFrom tokens) {l : Levels} (h : l.ReadFrom tokens) :
    (nest e l).ReadFrom tokens := by
  cases e with
  | complete s => exact ⟨List.forall_mem_cons.mpr ⟨he, h.1⟩, h.2⟩
  | lead kind =>
    have hbody : ∀ s ∈ l.inner.take 1, s.ReadFrom tokens :=
      fun s hs => h.1 s (List.mem_of_mem_take hs)
    have hbehind : ∀ s ∈ l.inner.drop 1, s.ReadFrom tokens :=
      fun s hs => h.1 s (List.mem_of_mem_drop hs)
    exact ⟨List.forall_mem_cons.mpr ⟨.compound hbody, hbehind⟩, h.2⟩
  | opening kind => exact h.wrap kind
  | reopening kind => exact (h.wrap kind).close
  | closing => exact h.close
  | openSpace name =>
    have hbody : ∀ s ∈ l.inner.takeWhile (!isSpace ·), s.ReadFrom tokens :=
      fun s hs => h.1 s ((List.takeWhile_sublist _).subset hs)
    have hbehind : ∀ s ∈ l.inner.drop (l.inner.takeWhile (!isSpace ·)).length, s.ReadFrom tokens :=
      fun s hs => h.1 s (List.mem_of_mem_drop hs)
    exact ⟨List.forall_mem_cons.mpr ⟨.space hbody, hbehind⟩, h.2⟩

/-- The statements that elements make up are read from tokens if the elements are. -/
theorem nestAll_readFrom {elements : List Element} (h : ∀ e ∈ elements, e.ReadFrom tokens) :
    ∀ s ∈ nestAll elements, s.ReadFrom tokens := by
  have hlevels : (elements.foldr nest ⟨[], []⟩).ReadFrom tokens := by
    induction elements with
    | nil => exact ⟨List.forall_mem_nil _, List.forall_mem_nil _⟩
    | cons e rest ih =>
      obtain ⟨he, hrest⟩ := List.forall_mem_cons.mp h
      exact nest_readFrom he (ih hrest)
  intro s hs
  rcases List.mem_append.mp hs with hinner | houter
  · exact hlevels.1 s hinner
  · obtain ⟨body, hbody, hmem⟩ := List.mem_flatten.mp houter
    exact hlevels.2 body hbody s hmem

/-- The statements of a piece of code are read from its tokens. -/
theorem statements_readFrom (h : ∀ item ∈ items, item.Over tokens) :
    ∀ s ∈ statements items, s.ReadFrom tokens :=
  nestAll_readFrom (elements_readFrom h)

end Reading

/-! ## Grouping -/

namespace Grouping

/-- The groups that are open and the items in them are made of tokens. -/
structure State.Over (tokens : List Token) (s : State) : Prop where
  frames : ∀ frame ∈ s.frames, frame.bracket ∈ tokens ∧ ∀ item ∈ frame.before, item.Over tokens
  items : ∀ item ∈ s.items, item.Over tokens

variable {s : State} {t : Token}

/-- A group that is closed is made of tokens, and what it holds in braces is read from them. -/
theorem State.Over.close (h : s.Over tokens) : (s.close Reading.statements).Over tokens := by
  obtain ⟨frames, items⟩ := s
  cases frames with
  | nil => exact h
  | cons frame frames =>
    obtain ⟨⟨hbracket, hbefore⟩, hframes⟩ := List.forall_mem_cons.mp h.frames
    have hitems : ∀ item ∈ items.reverse, item.Over tokens :=
      fun item hitem => h.items item (List.mem_reverse.mp hitem)
    refine ⟨hframes, List.forall_mem_cons.mpr ⟨.group hbracket hitems ?_, hbefore⟩⟩
    split
    · exact Reading.statements_readFrom hitems
    · exact List.forall_mem_nil _

/-- One more token keeps the open groups made of tokens. -/
theorem State.Over.add (h : s.Over tokens) (ht : t ∈ tokens) :
    (s.add Reading.statements t).Over tokens := by
  have hpush : State.Over tokens { s with items := .token t :: s.items } :=
    ⟨h.frames, List.forall_mem_cons.mpr ⟨.token ht, h.items⟩⟩
  unfold State.add
  split
  · split
    · exact ⟨List.forall_mem_cons.mpr ⟨⟨ht, h.items⟩, h.frames⟩, List.forall_mem_nil _⟩
    · split
      · exact h.close
      · exact hpush
  · exact hpush

/-- All further tokens keep the open groups made of tokens. -/
theorem State.Over.addAll {ts : List Token} (h : s.Over tokens) (hts : ∀ t ∈ ts, t ∈ tokens) :
    (ts.foldl (State.add Reading.statements) s).Over tokens := by
  induction ts generalizing s with
  | nil => exact h
  | cons t rest ih =>
    obtain ⟨ht, hrest⟩ := List.forall_mem_cons.mp hts
    exact ih (h.add ht) hrest

/-- At the end of the text the groups that are still open are closed. -/
theorem State.Over.closeAll (h : s.Over tokens) (frames : List Frame) :
    (frames.foldl (fun s _ => s.close Reading.statements) s).Over tokens := by
  induction frames generalizing s with
  | nil => exact h
  | cons frame rest ih => exact ih h.close

/-- Everything that is grouped is made of tokens. -/
theorem group_over (tokens : List Token) :
    ∀ item ∈ group Reading.statements tokens, item.Over tokens := by
  have hempty : State.Over tokens ⟨[], []⟩ :=
    ⟨List.forall_mem_nil _, List.forall_mem_nil _⟩
  intro item hitem
  exact ((hempty.addAll fun _ ht => ht).closeAll _).items item (List.mem_reverse.mp hitem)

end Grouping

/-- **Every declaration of a program, at whatever depth, is read from its tokens.** -/
theorem readProgram_readFrom (tokens : List Token) :
    ∀ s ∈ readProgram tokens, s.ReadFrom tokens :=
  Reading.statements_readFrom (Grouping.group_over tokens)

end PhpTypes.Php
