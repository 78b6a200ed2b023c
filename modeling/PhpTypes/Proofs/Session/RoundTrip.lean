import PhpTypes.Proofs.Session.Soundness
import PhpTypes.Proofs.TypeExpr.Interned
import PhpTypes.Proofs.TypeExpr.Rendered

/-!
# Masks and their texts in reachable contexts

Two masks of a reachable context have the same text only if they are equal, provided that all
classes have class names (`Context.Reachable.describe_eq_iff`).

In a context that was built by reading annotations, the text of an expressible mask is read as the
mask itself (`Context.ReadFrom.resolveText_describe`). This takes that the names of its classes are
legible. They are if no blank beyond ASCII occurs in the annotations and in the scopes; otherwise
trimming may leave a name that is no class name (`Context.resolveText_describe_ne_of_wideBlank`).
-/

namespace PhpTypes

open TypeExpr (isClassName isWideBlank IsSpelled)

/-! ## Contexts built by reading -/

/-- The namespace and the targets of imports are class names, of allowed characters. -/
def Scope.WellNamed (allowed : Char → Prop) (scope : Scope) : Prop :=
  scope.AllTexts fun text => isClassName text.toList = true ∧ ∀ c ∈ text.toList, allowed c

/-- A scope without imports is well named if its namespace is. -/
theorem Scope.WellNamed.ofNamespace {allowed : Char → Prop} (text : Option String)
    (h : ∀ name ∈ text.bind normalizeNamespace,
      isClassName name.toList = true ∧ ∀ c ∈ name.toList, allowed c) :
    (Scope.ofNamespace text).WellNamed allowed where
  current name hname := h name hname
  target _ hentry := absurd hentry List.not_mem_nil

/-- A text that is read as one annotation in a scope. -/
structure Annotation where
  scope : Option Scope
  fullyQualified : Bool
  text : String

namespace Request

/-- The annotations that the request reads. -/
def annotations : Request → List Annotation
  | resolve scope fullyQualified text => [⟨scope, fullyQualified, text⟩]
  | resolveAll scope fullyQualified texts => texts.map fun text => ⟨scope, fullyQualified, text⟩
  | resolveText scope text => (TypeExpr.splitAlternatives text).map fun text => ⟨scope, false, text⟩
  | _ => []

/-- A request that does not name a class itself adds classes by its annotations only. -/
theorem run_allNames {P : String → Prop} {r : Registry} {q : Request}
    (hq : ∀ text allowNull, q ≠ .nominal text allowNull)
    (hstep : ∀ a ∈ q.annotations, ∀ r : Registry, r.AllNames P →
      (TypeExpr.resolve a.scope a.fullyQualified a.text r).2.AllNames P)
    (h : r.AllNames P) : (q.run r).2.AllNames P := by
  cases q with
  | resolve scope fullyQualified text =>
    exact hstep ⟨scope, fullyQualified, text⟩ List.mem_cons_self r h
  | resolveAll scope fullyQualified texts =>
    exact TypeExpr.resolveAll_allNames h fun text htext r hr =>
      hstep ⟨scope, fullyQualified, text⟩ (List.mem_map_of_mem htext) r hr
  | resolveText scope text =>
    exact TypeExpr.resolveAll_allNames h fun alternative halternative r hr =>
      hstep ⟨scope, false, alternative⟩ (List.mem_map_of_mem halternative) r hr
  | known word => exact h
  | arrayOf element => exact h.arrayOf element
  | nominal text allowNull => exact absurd rfl (hq text allowNull)
  | union a b => exact h
  | kindPart m => exact h

/-- The request names no class but by an annotation, and annotation and scope consist of allowed
characters. -/
def Reads (allowed : Char → Prop) : Request → Prop
  | resolve scope _ text => (∀ s ∈ scope, s.WellNamed allowed) ∧ ∀ c ∈ text.toList, allowed c
  | resolveAll scope _ texts =>
    (∀ s ∈ scope, s.WellNamed allowed) ∧ ∀ text ∈ texts, ∀ c ∈ text.toList, allowed c
  | resolveText scope text => (∀ s ∈ scope, s.WellNamed allowed) ∧ ∀ c ∈ text.toList, allowed c
  | known _ => True
  | arrayOf _ => True
  | nominal _ _ => False
  | union _ _ => True
  | kindPart _ => True

variable {allowed : Char → Prop} {P : String → Prop} {r : Registry}

/-- Every annotation of a request is read in a well-named scope, with the allowed characters and
those of the word `null`. -/
theorem Reads.annotation {q : Request} (hq : q.Reads allowed) {a : Annotation}
    (ha : a ∈ q.annotations) :
    (∀ s ∈ a.scope, s.WellNamed allowed) ∧ ∀ c ∈ a.text.toList, allowed c ∨ c ∈ "null".toList := by
  cases q with
  | resolve scope fullyQualified text =>
    rw [List.mem_singleton.mp ha]
    exact ⟨hq.1, fun c hc => .inl (hq.2 c hc)⟩
  | resolveAll scope fullyQualified texts =>
    obtain ⟨text, htext, rfl⟩ := List.mem_map.mp ha
    exact ⟨hq.1, fun c hc => .inl (hq.2 text htext c hc)⟩
  | resolveText scope text =>
    obtain ⟨alternative, halternative, rfl⟩ := List.mem_map.mp ha
    refine ⟨hq.1, fun c hc => ?_⟩
    exact (TypeExpr.mem_of_mem_splitAlternatives halternative hc).imp_left (hq.2 c)
  | _ => exact absurd ha List.not_mem_nil

/-- What reading one annotation keeps of the names is kept by the whole request. -/
theorem Reads.run_allNames {q : Request} (hq : q.Reads allowed)
    (hstep : ∀ scope fullyQualified text r, (∀ s ∈ scope, s.WellNamed allowed) →
      (∀ c ∈ text.toList, allowed c ∨ c ∈ "null".toList) → r.AllNames P →
      (TypeExpr.resolve scope fullyQualified text r).2.AllNames P)
    (h : r.AllNames P) : (q.run r).2.AllNames P := by
  refine Request.run_allNames ?_ (fun a ha r hr => ?_) h
  · rintro text allowNull rfl
    exact hq
  · obtain ⟨hscope, htext⟩ := hq.annotation ha
    exact hstep a.scope a.fullyQualified a.text r hscope htext hr

end Request

namespace Context

/-- The contexts that are built by reading annotations and putting masks together, with scopes and
texts of allowed characters. -/
inductive ReadFrom (allowed : Char → Prop) : Context → Prop
  | empty : ReadFrom allowed .empty
  | answer {c : Context} {q : Request} (h : ReadFrom allowed c) (hq : q.Reads allowed)
      (hinputs : ∀ m ∈ q.inputs, m ∈ c.masks) : ReadFrom allowed (c.answer q)

variable {allowed : Char → Prop} {P : String → Prop} {c : Context}

/-- A context that is built by reading annotations is reachable. -/
theorem ReadFrom.reachable (h : c.ReadFrom allowed) : c.Reachable := by
  induction h with
  | empty => exact .empty
  | answer _ _ hinputs ih => exact ih.answer hinputs

/-- What reading an annotation keeps of class names holds in the whole context. -/
theorem ReadFrom.allNames (h : c.ReadFrom allowed)
    (hstep : ∀ scope fullyQualified text r, (∀ s ∈ scope, s.WellNamed allowed) →
      (∀ c ∈ text.toList, allowed c ∨ c ∈ "null".toList) → r.AllNames P →
      (TypeExpr.resolve scope fullyQualified text r).2.AllNames P) : c.registry.AllNames P := by
  induction h with
  | empty => exact .empty
  | answer _ hq _ ih => exact hq.run_allNames hstep ih

/-- Without blanks beyond ASCII, all classes have class names. -/
theorem ReadFrom.allSpelled (h : c.ReadFrom allowed)
    (hallowed : ∀ ch, allowed ch → isWideBlank ch = false) :
    c.registry.AllNames fun name => IsSpelled name.toList := by
  refine h.allNames fun scope fullyQualified text r hscope htext hr => ?_
  refine TypeExpr.resolve_allSpelled hr (fun s hs => ?_) fun ch hch => ?_
  · have hspelled {text : String} (htext : isClassName text.toList = true ∧
        ∀ c ∈ text.toList, allowed c) : IsSpelled text.toList :=
      ⟨htext.1, fun ch hch => hallowed ch (htext.2 ch hch)⟩
    exact ⟨fun text htext => hspelled ((hscope s hs).current text htext),
      fun entry hentry => hspelled ((hscope s hs).target entry hentry)⟩
  · rcases htext ch hch with hch | hnull
    · exact hallowed ch hch
    · have hall : ∀ ch ∈ "null".toList, isWideBlank ch = false := by decide
      exact hall ch hnull

/-! ## A context with one class -/

/-- The context in which one annotation has been read in a scope. -/
def readingIn (scope : Scope) (text : String) : Context :=
  Context.empty.answer (.resolve (some scope) false text)

/-- The context that has read a single annotation is built by reading annotations. -/
theorem ReadFrom.readingIn {scope : Scope} {text : String} (hscope : scope.WellNamed allowed)
    (htext : ∀ ch ∈ text.toList, allowed ch) : (readingIn scope text).ReadFrom allowed := by
  have hreads : (Request.resolve (some scope) false text).Reads allowed := by
    refine ⟨fun s hs => ?_, htext⟩
    rwa [← Option.some.inj hs]
  exact .answer .empty hreads fun m hm => absurd hm List.not_mem_nil

/-- The first class that is read gets the first slot. -/
theorem readingIn_eq {scope : Scope} {text name : String} (hmember : TypeExpr.Member text.toList)
    (hclass : isClassName text.toList = true) (hword : Keyword.lookup? text = none)
    (hname : (resolveName (some scope) text false).toText = name)
    (hprimitive : (resolveName (some scope) text false).isPrimitive = false) :
    readingIn scope text =
      ⟨Registry.empty.push (.classNamed name), [.of (.single .null) (.single 0)]⟩ := by
  have hhead : name.toList.head? ≠ some '\\' := by
    rw [← hname]
    exact head?_toText_resolveName _ text false
  have hlast : text.toList.getLast? ≠ some ']' := by
    obtain ⟨ch, hch, hchar⟩ := TypeExpr.exists_getLast?_of_isClassName hclass
    rw [hch]
    rintro ⟨⟩
    exact absurd hchar (by decide)
  have hne : text.isEmpty = false := by
    rw [Bool.eq_false_iff]
    intro hempty
    rw [String.isEmpty_iff.mp hempty] at hclass
    exact absurd hclass (by decide)
  have hmask : Registry.empty.classMask name =
      (.ofSlot 0, Registry.empty.push (.classNamed name)) := by
    rw [Registry.classMask, Text.dropLead_of_head?_ne hhead, String.ofList_toList,
      Registry.intern_empty]
  have hnull : Mask.ofSlot 0 ∪ .ofKind .null = .of (.single .null) (.single 0) := by decide
  have hread : TypeExpr.resolve (some scope) false text .empty =
      (.of (.single .null) (.single 0), Registry.empty.push (.classNamed name)) := by
    rw [← String.ofList_toList (s := text), TypeExpr.resolve_of_member hmember hlast,
      String.ofList_toList]
    simp [TypeExpr.resolveCore, hne, hword, hclass, hname, hprimitive, Registry.nominalMask, hmask,
      hnull]
  show Context.obtain .empty (TypeExpr.resolve (some scope) false text .empty) = _
  rw [hread]
  rfl

/-- A registry that was given one entry has it at the first slot. -/
theorem descriptor?_push_empty (d : Descriptor) (slot : Nat) :
    (Registry.empty.push d).descriptor? slot = if slot = 0 then some d else none := by
  rw [Registry.descriptor?_push, Registry.size_empty, Registry.descriptor?_empty]

/-- Beside `null`, the only class of a registry is expressible. -/
theorem expressible_of_class (name : String) :
    (Registry.empty.push (.classNamed name)).Expressible (.of (.single .null) (.single 0)) where
  null_mem _ _ _ _ := KindSet.mem_single.mpr rfl
  nestsKind slot _ e he := by
    rw [descriptor?_push_empty] at he
    split at he
    · cases he
    · cases he

/-! ## Texts identify masks -/

/-- **The text of a mask identifies the mask**, if all classes of the context have class names. -/
theorem Reachable.describe_eq_iff {c : Context} (h : c.Reachable)
    (hnames : c.registry.HasClassNames) {a b : Mask} (ha : c.Holds a) (hb : c.Holds b) :
    c.registry.describe a = c.registry.describe b ↔ a = b := by
  constructor
  · exact Registry.describe_injOn h.sound.wellFormed hnames (h.sound.owns_of_holds ha)
      (h.sound.owns_of_holds hb)
  · rintro rfl
    rfl

/-- A class that may be `null` is told from `null` alone. -/
theorem describe_ne_of_class_and_null :
    ((readingIn .empty "Foo").answer (.known "null")).registry.describe
        (.of (.single .null) (.single 0)) ≠
      ((readingIn .empty "Foo").answer (.known "null")).registry.describe (.ofKind .null) := by
  have hfoo : readingIn .empty "Foo" =
      ⟨Registry.empty.push (.classNamed "Foo"), [.of (.single .null) (.single 0)]⟩ :=
    readingIn_eq (.of_word (by decide) (by decide)) (by decide) (by decide) (by decide)
      (by decide)
  have hread : ((readingIn .empty "Foo").answer (.known "null")).ReadFrom
      fun ch => isWideBlank ch = false :=
    .answer (.readingIn (.ofNamespace none (by decide)) (by decide)) trivial
      fun m hm => absurd hm List.not_mem_nil
  have hnames : ((readingIn .empty "Foo").answer (.known "null")).registry.HasClassNames :=
    fun slot name hd => (hread.allSpelled (fun _ hch => hch) slot name hd).isClassName
  refine (not_congr (Reachable.describe_eq_iff hread.reachable hnames (.inl ?_) (.inl ?_))).mpr
    (by decide)
  · rw [hfoo]
    exact List.mem_cons_of_mem _ (List.mem_singleton_self _)
  · exact List.mem_cons_self

/-! ## Reading texts of masks -/

/-- **Reading undoes writing.** In a context built by reading annotations, the text of a mask with
`null` beside its classes, and with arrays of one kind only, is read as the mask itself in every
scope, and nothing is added. -/
theorem ReadFrom.resolveText_describe (h : c.ReadFrom allowed) {m : Mask} (hm : c.Holds m)
    (hexp : c.registry.Expressible m)
    (hnames : (∀ ch, allowed ch → isWideBlank ch = false) ∨
      ∀ slot ∈ m.slots, ∀ name, c.registry.descriptor? slot = some (.classNamed name) →
        IsLegible name)
    (scope : Option Scope) :
    TypeExpr.resolveText scope (c.registry.describe m) c.registry = (m, c.registry) := by
  have hsound := h.reachable.sound
  have hwords : c.registry.AllNames fun name => Keyword.lookup? name = none :=
    h.allNames fun _ _ text _ _ _ hr => TypeExpr.resolve_allNotWords hr text
  have hlegible : ∀ slot ∈ m.slots, ∀ name,
      c.registry.descriptor? slot = some (.classNamed name) → IsLegible name := by
    rcases hnames with hallowed | hlegible
    · intro slot _ name hd
      have hspelled := h.allSpelled hallowed slot name hd
      exact ⟨hspelled.isClassName, fun ch hch => hspelled.not_isBlank (List.mem_of_getLast? hch)⟩
    · exact hlegible
  refine Registry.resolveText_of_describe hsound.wellFormed (hsound.owns_of_holds hm) hexp ?_ scope
  intro slot hslot name hd
  exact ⟨hlegible slot hslot name hd, hwords slot name hd⟩

/-- A class of the current namespace, read back without any scope. -/
theorem resolveText_describe_of_class :
    TypeExpr.resolveText none
        ((readingIn (.ofNamespace (some "App")) "User").registry.describe
          (.of (.single .null) (.single 0)))
        (readingIn (.ofNamespace (some "App")) "User").registry =
      (.of (.single .null) (.single 0), (readingIn (.ofNamespace (some "App")) "User").registry) := by
  have huser : readingIn (.ofNamespace (some "App")) "User" =
      ⟨Registry.empty.push (.classNamed "App\\User"), [.of (.single .null) (.single 0)]⟩ :=
    readingIn_eq (.of_word (by decide) (by decide)) (by decide) (by decide) (by decide)
      (by decide)
  refine ReadFrom.resolveText_describe (.readingIn (.ofNamespace _ (by decide)) (by decide))
    (.inl ?_) ?_ (.inl fun _ (hch : isWideBlank _ = false) => hch) none
  · rw [huser]
    exact List.mem_singleton_self _
  · rw [huser]
    exact expressible_of_class "App\\User"

/-- The context in which a class name with a blank beyond ASCII has been read. The blank is trimmed
off when the name is resolved, and what is left is no class name. -/
def misread : Context :=
  readingIn .empty "namespace\\\u00a01x"

/-- The context holds the class `1x`, though that is no class name. -/
theorem misread_eq :
    misread = ⟨Registry.empty.push (.classNamed "1x"), [.of (.single .null) (.single 0)]⟩ :=
  readingIn_eq ⟨.of_isPlain (by decide), ⟨_, rfl, by decide⟩, ⟨_, rfl, by decide⟩⟩ (by decide)
    (by decide) (by decide) (by decide)

/-- The context is built by reading an annotation with a blank beyond ASCII. -/
theorem readFrom_misread : misread.ReadFrom fun _ => True :=
  .readingIn (.ofNamespace none (by decide)) fun _ _ => trivial

/-- The class and `null` are written as if the name were one. -/
theorem describe_misread :
    misread.registry.describe (.of (.single .null) (.single 0)) =
      .ofList (Text.join '|' ["\\1x".toList, "null".toList]) := by
  have hwf := readFrom_misread.reachable.sound.wellFormed
  have howns := readFrom_misread.reachable.sound.owns
  rw [misread_eq] at hwf howns ⊢
  have hd : (Registry.empty.push (.classNamed "1x")).descriptor? 0 = some (.classNamed "1x") := by
    rw [descriptor?_push_empty, if_pos rfl]
  have hparts : (Registry.empty.push (.classNamed "1x")).parts (.of (.single .null) (.single 0)) =
      ["\\1x".toList, "null".toList] := by
    have hchars : (Registry.empty.push (.classNamed "1x")).slotChars 0 = "\\1x".toList :=
      Registry.slotChars_of_class hd
    rw [← hchars]
    rfl
  rw [← hparts, ← Registry.toList_describe hwf (howns _ (List.mem_singleton_self _)) (by decide)
    (by decide), String.ofList_toList]

/-- The member that is no class name is dropped. -/
theorem resolveText_misread (r : Registry) :
    TypeExpr.resolveText none (.ofList (Text.join '|' ["\\1x".toList, "null".toList])) r =
      (.void ∪ .void ∪ .ofKind .null, r) := by
  have hname : TypeExpr.Member "\\1x".toList := .of_word (by decide) (by decide)
  have hmembers : ∀ part ∈ ["\\1x".toList, "null".toList], TypeExpr.Member part := by
    intro part hpart
    rcases List.mem_cons.mp hpart with rfl | hpart
    · exact hname
    · rw [List.mem_singleton.mp hpart]
      exact TypeExpr.member_keyword .null
  have hvoid : TypeExpr.resolve none false (.ofList "\\1x".toList) r = (.void, r) := by
    rw [TypeExpr.resolve_of_member hname (by decide)]
    rfl
  have hnull : TypeExpr.resolve none false (.ofList "null".toList) r = (.ofKind .null, r) :=
    TypeExpr.resolve_keyword .null
  rw [TypeExpr.resolveText, TypeExpr.splitAlternatives_join (List.cons_ne_nil _ _) hmembers,
    List.map_cons, List.map_singleton]
  simp only [TypeExpr.resolveAll, List.foldl_cons, List.foldl_nil, hvoid, hnull]

/-- A mask of which the text is not read as the mask, though its context was built by reading. -/
theorem resolveText_describe_ne_of_wideBlank :
    misread.ReadFrom (fun _ => True) ∧
      .of (.single .null) (.single 0) ∈ misread.masks ∧
      misread.registry.Expressible (.of (.single .null) (.single 0)) ∧
      TypeExpr.resolveText none
          (misread.registry.describe (.of (.single .null) (.single 0))) misread.registry ≠
        (.of (.single .null) (.single 0), misread.registry) := by
  refine ⟨readFrom_misread, ?_, ?_, fun heq => ?_⟩
  · rw [misread_eq]
    exact List.mem_singleton_self _
  · rw [misread_eq]
    exact expressible_of_class "1x"
  · rw [describe_misread, resolveText_misread] at heq
    exact absurd (congrArg Prod.fst heq) (by decide)

end Context

end PhpTypes
