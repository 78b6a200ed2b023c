import PhpTypes.Php.Syntax
import PhpTypes.Proofs.Session.Soundness
import PhpTypes.Proofs.TypeExpr.Layers
import PhpTypes.Proofs.TypeExpr.Resolved
import PhpTypes.Proofs.TypeExpr.Union

/-!
# What native hints mean

A hint is written in annotation notation without parentheses and is read again as any other type
text. `Hint.resolve` says what it means part by part. The two agree, with the same mask and the same
registry (`Hint.resolveText_toText`).

A mark in front of a union is split off with the first member, although it was meant for all of
them. Its alternative `null` then stands between the others, but a union of masks does not depend on
where its members stand (`resolveAll_null`), and `null` adds nothing to the registry.
-/

namespace PhpTypes

namespace TypeExpr

variable {scope : Option Scope} {fullyQualified : Bool} {r : Registry}

/-! ## The alternative `null` -/

/-- The word `null` may stand anywhere among annotations. -/
theorem resolveAll_null (texts rest : List String) (r : Registry) :
    resolveAll scope fullyQualified (texts ++ "null" :: rest) r =
      ((resolveAll scope fullyQualified (texts ++ rest) r).1 ∪ .ofKind .null,
        (resolveAll scope fullyQualified (texts ++ rest) r).2) := by
  have hword : Keyword.lookup? "null" = some .null := by decide
  have hnull (r : Registry) : resolve scope fullyQualified "null" r = (.ofKind .null, r) :=
    resolve_of_lookup? (by decide) (by decide) hword
  rw [← List.singleton_append, resolveAll_append, resolveAll_append, resolveAll_append,
    resolveAll_singleton, hnull, Mask.union_comm (.ofKind .null), ← Mask.union_assoc]

/-! ## Marks and names -/

/-- A mark in front of a union puts `null` among its alternatives. -/
theorem exists_alternatives_cons_mark (text : List Char) : ∃ before after,
    alternatives text = before ++ after ∧
      alternatives ('?' :: text) = before ++ "null".toList :: after := by
  obtain ⟨part, parts, hparts⟩ := List.exists_cons_of_ne_nil (splitBars_ne_nil 0 text)
  have hdepth : depthAfter 0 '?' = 0 := by decide
  have hmark : splitBars 0 ('?' :: text) = ('?' :: part) :: parts := by
    rw [splitBars_cons (fun hbar => absurd hbar (by decide)), hdepth, hparts, List.modifyHead_cons]
  refine ⟨expand part, parts.flatMap expand, ?_, ?_⟩
  · rw [alternatives, hparts, List.flatMap_cons]
  · rw [alternatives, hmark, List.flatMap_cons, expand_cons_mark, List.append_assoc,
      List.singleton_append]

/-- Blanks around a text do not change what it is read as. -/
theorem resolve_trim (text : List Char) :
    resolve scope fullyQualified (.ofList (Text.trim text)) r =
      resolve scope fullyQualified (.ofList text) r := by
  rw [resolve, resolve, String.toList_ofList, String.toList_ofList, peel_eq, peel_eq,
    Text.trim_trim]

/-- A class name is read as it stands. Blanks beyond ASCII may be lost at its ends, but reading
loses them anyway. -/
theorem resolveAll_alternatives_className {text : List Char} (h : isClassName text = true)
    (r : Registry) :
    resolveAll scope fullyQualified ((alternatives text).map String.ofList) r =
      resolve scope fullyQualified (.ofList text) r := by
  have hpassed : PassedOver 0 text := .of_isPlain fun c hc => isPlain_of_mem_className h hc
  rw [alternatives_of_passedOver hpassed]
  by_cases hblank : Text.trim text = []
  · have hempty : resolve scope fullyQualified (.ofList []) r = (.void, r) :=
      resolve_of_trim_eq rfl (by decide)
    rw [expand_of_blank hblank, ← resolve_trim, hblank, hempty]
    rfl
  · have hhead {c : Char} (hc : (Text.trim text).head? = some c) : c = '\\' ∨ isNameChar c = true :=
      eq_backslash_or_isNameChar h (Text.mem_of_mem_trim (List.mem_of_head? hc))
    have hmark : (Text.trim text).head? ≠ some '?' := fun hc => absurd (hhead hc) (by decide)
    have hparen : (Text.trim text).head? ≠ some '(' := fun hc => absurd (hhead hc) (by decide)
    rw [expand_of_plain hblank hmark (group?_of_head?_ne hparen), List.map_singleton,
      resolveAll_singleton, resolve_trim]

end TypeExpr

/-! ## Hints -/

namespace Php.Hint

/-- All words of the hint are names. -/
def IsNamed : Hint → Prop
  | leaf text => TypeExpr.isClassName text.toList = true
  | iterable => True
  | never => True
  | nullable inner => inner.IsNamed
  | union left right => left.IsNamed ∧ right.IsNamed
  | intersection left right => left.IsNamed ∧ right.IsNamed
  | group inner => inner.IsNamed

instance decidableIsNamed : DecidablePred IsNamed
  | leaf text => inferInstanceAs (Decidable (TypeExpr.isClassName text.toList = true))
  | iterable => .isTrue trivial
  | never => .isTrue trivial
  | nullable inner => decidableIsNamed inner
  | union left right =>
    haveI := decidableIsNamed left
    haveI := decidableIsNamed right
    inferInstanceAs (Decidable (left.IsNamed ∧ right.IsNamed))
  | intersection left right =>
    haveI := decidableIsNamed left
    haveI := decidableIsNamed right
    inferInstanceAs (Decidable (left.IsNamed ∧ right.IsNamed))
  | group inner => decidableIsNamed inner

/-- The mask of a hint, put together from the masks of its parts, which are read from left to
right. -/
def resolve (scope : Option Scope) : Hint → Registry → Mask × Registry
  | leaf text, r => TypeExpr.resolve scope false text r
  | iterable, r =>
    let (traversable, r) := r.nominalMask (.parse "\\Traversable") true
    (.ofKind .array ∪ traversable, r)
  | never, r => (.void, r)
  | nullable inner, r =>
    let (mask, r) := inner.resolve scope r
    (mask ∪ .ofKind .null, r)
  | union left right, r =>
    let (leftMask, r) := left.resolve scope r
    let (rightMask, r) := right.resolve scope r
    (leftMask ∪ rightMask, r)
  | intersection left _, r => left.resolve scope r
  | group inner, r => inner.resolve scope r

variable {h : Hint} {scope : Option Scope}

/-! ## The text of a hint -/

/-- The characters in the text of a hint: those of names, and the two marks of the notation. -/
theorem mem_toText (hnamed : h.IsNamed) {c : Char} (hc : c ∈ h.toText.toList) :
    c = '\\' ∨ TypeExpr.isNameChar c = true ∨ c = '?' ∨ c = '|' := by
  induction h with
  | leaf text =>
    rcases TypeExpr.eq_backslash_or_isNameChar hnamed hc with hsep | hname
    · exact .inl hsep
    · exact .inr (.inl hname)
  | iterable =>
    have hall : ∀ c ∈ "array|\\Traversable".toList,
        c = '\\' ∨ TypeExpr.isNameChar c = true ∨ c = '?' ∨ c = '|' := by decide
    exact hall c hc
  | never =>
    have hall : ∀ c ∈ "void".toList,
        c = '\\' ∨ TypeExpr.isNameChar c = true ∨ c = '?' ∨ c = '|' := by decide
    exact hall c hc
  | nullable inner ih =>
    rw [toText, String.toList_append] at hc
    rcases List.mem_append.mp hc with hc | hc
    · exact .inr (.inr (.inl (List.mem_singleton.mp hc)))
    · exact ih hnamed hc
  | union left right ihl ihr =>
    rw [toText, String.toList_append, String.toList_append] at hc
    rcases List.mem_append.mp hc with hc | hc
    · rcases List.mem_append.mp hc with hc | hc
      · exact ihl hnamed.1 hc
      · exact .inr (.inr (.inr (List.mem_singleton.mp hc)))
    · exact ihr hnamed.2 hc
  | intersection left right ihl => exact ihl hnamed.1 hc
  | group inner ih => exact ih hnamed hc

/-- The text of a hint holds no brackets. -/
theorem depth_toText (hnamed : h.IsNamed) : TypeExpr.depth h.toText.toList = 0 := by
  refine TypeExpr.depth_eq_zero fun c hc => ?_
  rcases mem_toText hnamed hc with rfl | hname | rfl | rfl
  · decide
  · exact TypeExpr.depthAfter_of_isPlain (TypeExpr.isPlain_of_isNameChar hname)
  · decide
  · decide

/-- A hint is written without punctuation that would be dropped at its end. -/
theorem isTrailing_of_mem_toText (hnamed : h.IsNamed) {c : Char} (hc : c ∈ h.toText.toList) :
    TypeExpr.isTrailing c = false := by
  rw [Bool.eq_false_iff]
  intro htrailing
  simp only [TypeExpr.isTrailing, Bool.or_eq_true, beq_iff_eq] at htrailing
  rcases htrailing with rfl | rfl <;> exact absurd (mem_toText hnamed hc) (by decide)

/-! ## Reading the text -/

/-- The class behind `iterable` is read as itself. -/
theorem resolve_traversable (r : Registry) :
    TypeExpr.resolve scope false "\\Traversable" r =
      r.nominalMask (.parse "\\Traversable") true := by
  have hname : resolveName scope "\\Traversable" false = .parse "\\Traversable" :=
    resolveName_of_backslash (by decide) scope false
  have hword : Keyword.lookup? (QualifiedName.parse "\\Traversable").toText = none := by decide
  rw [TypeExpr.resolve_className (by decide) (by decide), hname,
    Registry.namedMask_of_lookup?_eq_none hword]

/-- The alternatives in the text of a hint have the mask of the hint as their union. -/
theorem resolveAll_alternatives_toText (hnamed : h.IsNamed) (r : Registry) :
    TypeExpr.resolveAll scope false
        ((TypeExpr.alternatives h.toText.toList).map String.ofList) r = h.resolve scope r := by
  induction h generalizing r with
  | leaf text =>
    rw [toText, TypeExpr.resolveAll_alternatives_className hnamed, String.ofList_toList]
    rfl
  | iterable =>
    have htext : iterable.toText.toList = "array".toList ++ '|' :: "\\Traversable".toList := rfl
    have hword : Keyword.lookup? "array" = some .array := by decide
    have harray : TypeExpr.resolve scope false "array" r = (.ofKind .array, r) :=
      TypeExpr.resolve_of_lookup? (by decide) (by decide) hword
    rw [htext, TypeExpr.alternatives_append_bar (by decide), List.map_append,
      TypeExpr.resolveAll_append, TypeExpr.resolveAll_alternatives_className (by decide),
      TypeExpr.resolveAll_alternatives_className (by decide), String.ofList_toList,
      String.ofList_toList, harray, resolve_traversable]
    rfl
  | never =>
    have hword : Keyword.lookup? "void" = some .void := by decide
    have hvoid : TypeExpr.resolve scope false "void" r = (.void, r) :=
      TypeExpr.resolve_of_lookup? (by decide) (by decide) hword
    rw [toText, TypeExpr.resolveAll_alternatives_className (by decide), String.ofList_toList, hvoid]
    rfl
  | nullable inner ih =>
    -- The mark is split off with the first member, so `null` stands behind its alternatives only.
    obtain ⟨before, after, hinner, hmark⟩ :=
      TypeExpr.exists_alternatives_cons_mark inner.toText.toList
    have htext : (nullable inner).toText.toList = '?' :: inner.toText.toList := by
      rw [toText, String.toList_append]
      rfl
    rw [htext, hmark, List.map_append, List.map_cons, String.ofList_toList,
      TypeExpr.resolveAll_null, ← List.map_append, ← hinner, ih hnamed]
    rfl
  | union left right ihl ihr =>
    have htext : (union left right).toText.toList =
        left.toText.toList ++ '|' :: right.toText.toList := by
      rw [toText, String.toList_append, String.toList_append, List.append_assoc]
      rfl
    rw [htext, TypeExpr.alternatives_append_bar (depth_toText hnamed.1), List.map_append,
      TypeExpr.resolveAll_append, ihl hnamed.1, ihr hnamed.2]
    rfl
  | intersection left right ihl => exact ihl hnamed.1 r
  | group inner ih => exact ih hnamed r

/-- **A hint means what its parts mean.** Its text is read as the mask that is put together from the
masks of its parts, and both leave the same registry. -/
theorem resolveText_toText (hnamed : h.IsNamed) (scope : Option Scope) (r : Registry) :
    TypeExpr.resolveText scope h.toText r = h.resolve scope r := by
  have hlast : ∀ c ∈ (Text.trim h.toText.toList).getLast?, TypeExpr.isTrailing c = false :=
    fun c hc => isTrailing_of_mem_toText hnamed (Text.mem_of_mem_trim (List.mem_of_getLast? hc))
  have hnil : ∀ c ∈ [], TypeExpr.isTrailing c = true := fun c hc => absurd hc List.not_mem_nil
  have hdrop := TypeExpr.alternatives_dropEndWhile hlast hnil
  rw [List.append_nil] at hdrop
  rw [TypeExpr.resolveText, TypeExpr.splitAlternatives, hdrop,
    resolveAll_alternatives_toText hnamed]

/-- What `iterable` with a mark in front means: arrays, the class `Traversable` and `null`. -/
theorem yields_nullable_iterable {r : Registry} (hr : r.WellFormed) (scope : Option Scope) :
    r.Yields (.of (.single .array ∪ .single .null) {"traversable"} ∅)
      ((nullable .iterable).resolve scope r) := by
  have hclass : r.Yields (TypeExpr.nullableClass (.parse "\\Traversable"))
      (r.nominalMask (.parse "\\Traversable") true) :=
    TypeExpr.nominalMask_yields hr (by decide) true
  have hfold : (QualifiedName.parse "\\Traversable").toText.foldCase = "traversable" := by decide
  have harray : (r.nominalMask (.parse "\\Traversable") true).2.Owns
      (.ofKind .array ∪ (r.nominalMask (.parse "\\Traversable") true).1) :=
    (Registry.Owns.ofKind .array).union hclass.owns
  refine ⟨hclass.wellFormed, hclass.grows, harray.union (.ofKind .null), ?_⟩
  show (r.nominalMask (.parse "\\Traversable") true).2.typeOf
    (.ofKind .array ∪ (r.nominalMask (.parse "\\Traversable") true).1 ∪ .ofKind .null) = _
  have hkinds : KindSet.single .array ∪ .single .null ∪ .single .null =
      .single .array ∪ .single .null := KindSet.ext fun k => by simp
  rw [Registry.typeOf_union hclass.wellFormed harray (.ofKind .null),
    Registry.typeOf_union hclass.wellFormed (.ofKind .array) hclass.owns, hclass.typeOf_eq,
    Registry.typeOf_ofKind hclass.wellFormed, Registry.typeOf_ofKind hclass.wellFormed,
    TypeExpr.nullableClass, hfold, PhpType.of_union_of, PhpType.of_union_of, hkinds]
  simp

end Php.Hint

namespace Context

open Php in
/-- **Native hints are read compositionally.** In every reachable context and every scope, the text
of a hint is read as the mask that its parts make up, and leaves the registry that they leave. The
mark of a nullable hint counts for the whole hint, though its text may read otherwise: nullable
`iterable` is written `?array|\Traversable` and still means an array, a `Traversable` or `null`. -/
theorem Reachable.resolveText_hint {c : Context} (hc : c.Reachable) (scope : Option Scope)
    {h : Hint} (hnamed : h.IsNamed) :
    TypeExpr.resolveText scope h.toText c.registry = h.resolve scope c.registry ∧
      (Hint.nullable .iterable).toText = "?array|\\Traversable" ∧
      c.registry.Yields (.of (.single .array ∪ .single .null) {"traversable"} ∅)
        (TypeExpr.resolveText scope "?array|\\Traversable" c.registry) := by
  have hiterable : (Hint.nullable .iterable).toText = "?array|\\Traversable" := rfl
  have hnullable : (Hint.nullable .iterable).IsNamed := trivial
  refine ⟨Hint.resolveText_toText hnamed scope c.registry, hiterable, ?_⟩
  rw [← hiterable, Hint.resolveText_toText hnullable]
  exact Hint.yields_nullable_iterable hc.sound.wellFormed scope

open Php in
/-- A mark in front of a union in parentheses, in a context that knows one of the classes. -/
theorem resolveText_hint_of_nullable_union :
    let h : Hint := .nullable (.group (.union (.leaf "Foo") (.intersection .iterable .never)))
    (reading "Foo[]").Reachable ∧ h.IsNamed ∧ h.toText = "?Foo|array|\\Traversable" ∧
      TypeExpr.resolveText none h.toText (reading "Foo[]").registry =
        h.resolve none (reading "Foo[]").registry := by
  intro h
  have hnamed : h.IsNamed := by decide
  obtain ⟨hread, -, -⟩ := Reachable.resolveText_hint (.reading "Foo[]") none hnamed
  exact ⟨.reading "Foo[]", hnamed, by decide, hread⟩

end Context

end PhpTypes
