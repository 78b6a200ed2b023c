import PhpTypes.Proofs.Name.Case
import PhpTypes.Proofs.Signature.Requests
import PhpTypes.Proofs.TypeExpr.Case

/-!
# Letter case never matters

Two registries are alike (`Registry.SameCase`) if they have the same slots, with the same arrays and
with classes whose names agree up to letter case, and if they find their entries under the same
keys. Operations on registries that are alike, given names and texts that agree up to letter case,
answer with the same mask and leave registries that are alike.

By induction, two lists of requests that agree position by position are answered with the same masks
(`Request.runAll_sameCase`). Case is folded in several places on the way: in the vocabulary, in
front of bracketed arrays, in aliases, in the word `namespace`, and in the keys of classes.
-/

namespace PhpTypes

namespace Registry

/-- The registries have the same slots, with descriptors that agree up to the letter case of class
names, and the same index. -/
structure SameCase (r r' : Registry) : Prop where
  size_eq : r.size = r'.size
  key_eq : ∀ slot,
    (r.descriptor? slot).map Descriptor.key = (r'.descriptor? slot).map Descriptor.key
  index_eq : ∀ key : TypeKey, r.index[key]? = r'.index[key]?

/-- Every registry is like itself. -/
theorem SameCase.refl (r : Registry) : r.SameCase r :=
  ⟨rfl, fun _ => rfl, fun _ => rfl⟩

/-- The answers consist of the same mask and of registries that are alike. -/
def SameAnswer (answer answer' : Mask × Registry) : Prop :=
  answer.1 = answer'.1 ∧ answer.2.SameCase answer'.2

variable {r r' : Registry}

/-- Descriptors with the same key get the same new slot in registries that are alike. -/
theorem SameCase.push (h : r.SameCase r') {d d' : Descriptor} (hkey : d.key = d'.key) :
    (r.push d).SameCase (r'.push d') where
  size_eq := by rw [size_push, size_push, h.size_eq]
  key_eq slot := by
    rw [descriptor?_push, descriptor?_push, h.size_eq]
    split
    · rw [Option.map_some, Option.map_some, hkey]
    · exact h.key_eq slot
  index_eq key := by
    show (r.index.insert d.key r.size)[key]? = (r'.index.insert d'.key r'.size)[key]?
    rw [Std.HashMap.getElem?_insert, Std.HashMap.getElem?_insert, hkey, h.size_eq, h.index_eq]

/-- Descriptors with the same key get the same slot in registries that are alike, whether they are
new there or not. -/
theorem SameCase.intern (h : r.SameCase r') {d d' : Descriptor} (hkey : d.key = d'.key) :
    (r.intern d).1 = (r'.intern d').1 ∧ (r.intern d).2.SameCase (r'.intern d').2 := by
  have hindex : r.index[d.key]? = r'.index[d'.key]? := by rw [h.index_eq, hkey]
  unfold Registry.intern
  rw [hindex]
  split
  · exact ⟨rfl, h⟩
  · exact ⟨h.size_eq, h.push hkey⟩

/-- The arrays of a mask are the same in registries that are alike. -/
theorem SameCase.arrayOf (h : r.SameCase r') (m : Mask) :
    SameAnswer (r.arrayOf m) (r'.arrayOf m) := by
  unfold Registry.arrayOf
  split
  · exact ⟨rfl, h⟩
  · have hkey : (Descriptor.arrayOf m).key = (Descriptor.arrayOf m).key := rfl
    obtain ⟨hslot, hr⟩ := h.intern hkey
    exact ⟨congrArg (Mask.ofKind .array ∪ .ofSlot ·) hslot, hr⟩

/-- A class gets the same mask under every spelling of its letters. -/
theorem SameCase.classMask (h : r.SameCase r') {name name' : String}
    (hname : name.foldCase = name'.foldCase) :
    SameAnswer (r.classMask name) (r'.classMask name') := by
  have hkey : (Descriptor.classNamed (.ofList (Text.dropLead ['\\'] name.toList))).key =
      (Descriptor.classNamed (.ofList (Text.dropLead ['\\'] name'.toList))).key := by
    rw [Descriptor.key, Descriptor.key, String.foldCase_ofList, String.foldCase_ofList,
      ← Text.dropLead_foldCase (by decide), String.foldCase_eq_iff.mp hname,
      Text.dropLead_foldCase (by decide)]
  obtain ⟨hslot, hr⟩ := h.intern hkey
  exact ⟨congrArg Mask.ofSlot hslot, hr⟩

/-- A hint gets the same mask under every spelling of the letters of its name. -/
theorem SameCase.nominalMask (h : r.SameCase r') {p q : QualifiedName}
    (hname : p.foldCase = q.foldCase) (allowNull : Bool) :
    SameAnswer (r.nominalMask p allowNull) (r'.nominalMask q allowNull) := by
  obtain ⟨hmask, hr⟩ := h.classMask (QualifiedName.toText_congr hname)
  have hnull : (if allowNull then (r.classMask p.toText).1 ∪ .ofKind .null
      else (r.classMask p.toText).1) =
      if allowNull then (r'.classMask q.toText).1 ∪ .ofKind .null
      else (r'.classMask q.toText).1 := by
    rw [hmask]
  exact ⟨hnull, hr⟩

end Registry

namespace TypeExpr

open Registry (SameAnswer)

variable {r r' : Registry} {scope scope' : Option Scope} {fullyQualified : Bool}

/-! ## Annotations -/

/-- A text without array layers is answered alike under every spelling of its letters: as a word of
the vocabulary, as a class, or as nothing. -/
theorem resolveCore_congr (h : r.SameCase r') (hscope : Option.Rel Scope.SameCase scope scope')
    {text text' : String} (htext : text.foldCase = text'.foldCase) :
    SameAnswer (resolveCore scope fullyQualified text r)
      (resolveCore scope' fullyQualified text' r') := by
  have hname := resolveName_congr hscope htext fullyQualified
  have hempty : text.isEmpty = text'.isEmpty := by
    rw [← String.isEmpty_foldCase, htext, String.isEmpty_foldCase]
  have hclass : isClassName text.toList = isClassName text'.toList := by
    rw [← isClassName_foldCase, String.foldCase_eq_iff.mp htext, isClassName_foldCase]
  have hprimitive : (resolveName scope text fullyQualified).isPrimitive =
      (resolveName scope' text' fullyQualified).isPrimitive := by
    rw [← QualifiedName.isPrimitive_foldCase, hname, QualifiedName.isPrimitive_foldCase]
  have hword : Keyword.maskOf (resolveName scope text fullyQualified).name =
      Keyword.maskOf (resolveName scope' text' fullyQualified).name := by
    rw [Keyword.maskOf, Keyword.maskOf, Keyword.lookup?_congr (congrArg QualifiedName.name hname)]
  -- Every test on the way comes out the same for both texts.
  unfold resolveCore
  rw [hempty, Keyword.lookup?_congr htext, hclass]
  dsimp only
  rw [hprimitive, hword]
  split
  · exact ⟨rfl, h⟩
  · split
    · exact ⟨rfl, h⟩
    · split
      · exact ⟨rfl, h⟩
      · split
        · exact ⟨rfl, h⟩
        · exact h.nominalMask hname true

/-- Answers that are alike stay alike under array layers. -/
theorem wrap_congr {answer answer' : Mask × Registry} (h : SameAnswer answer answer')
    (layers : Nat) : SameAnswer (wrap layers answer) (wrap layers answer') := by
  induction layers with
  | zero => exact h
  | succ layers ih =>
    rw [wrap_succ, wrap_succ, ih.1]
    exact ih.2.arrayOf _

/-- Annotations that agree up to letter case are answered alike. -/
theorem resolve_congr (h : r.SameCase r') (hscope : Option.Rel Scope.SameCase scope scope')
    {text text' : String} (htext : text.foldCase = text'.foldCase) :
    SameAnswer (resolve scope fullyQualified text r) (resolve scope' fullyQualified text' r') := by
  have hpeel (text : String) : peelTrimmed (Text.trim text.foldCase.toList) =
      ((peelTrimmed (Text.trim text.toList)).1.map Text.foldCase,
        (peelTrimmed (Text.trim text.toList)).2) := by
    rw [String.toList_foldCase, Text.trim_foldCase, peelTrimmed_foldCase]
  have hboth : ((peelTrimmed (Text.trim text.toList)).1.map Text.foldCase,
      (peelTrimmed (Text.trim text.toList)).2) =
      ((peelTrimmed (Text.trim text'.toList)).1.map Text.foldCase,
        (peelTrimmed (Text.trim text'.toList)).2) := by
    rw [← hpeel, ← hpeel, htext]
  obtain ⟨hcore, hlayers⟩ := Prod.mk.inj hboth
  -- Both texts have equally many layers, and their innermost elements agree up to letter case.
  rw [resolve, resolve, peel_eq, peel_eq]
  dsimp only
  rw [hlayers]
  refine wrap_congr ?_ _
  have hrel := Text.rel_of_map_eq hcore
  generalize (peelTrimmed (Text.trim text.toList)).1 = core,
    (peelTrimmed (Text.trim text'.toList)).1 = core' at hrel
  cases hrel with
  | none => exact ⟨rfl, h⟩
  | some hfold =>
    refine resolveCore_congr h hscope ?_
    rw [String.foldCase_ofList, String.foldCase_ofList, hfold]

/-- Lists of annotations that agree position by position are answered alike. -/
theorem resolveAll_congr (h : r.SameCase r') (hscope : Option.Rel Scope.SameCase scope scope')
    {texts texts' : List String}
    (htexts : texts.map String.foldCase = texts'.map String.foldCase) :
    SameAnswer (resolveAll scope fullyQualified texts r)
      (resolveAll scope' fullyQualified texts' r') := by
  unfold resolveAll
  generalize Mask.void = acc
  induction texts generalizing texts' acc r r' with
  | nil =>
    obtain rfl : texts' = [] := List.map_eq_nil_iff.mp htexts.symm
    rw [List.foldl_nil, List.foldl_nil]
    exact ⟨rfl, h⟩
  | cons text rest ih =>
    obtain ⟨text', rest', rfl, hfirst, hrest⟩ := List.map_eq_cons_iff.mp htexts.symm
    obtain ⟨hmask, hr⟩ : SameAnswer (resolve scope fullyQualified text r)
        (resolve scope' fullyQualified text' r') := resolve_congr h hscope hfirst.symm
    rw [List.foldl_cons, List.foldl_cons]
    dsimp only
    rw [hmask]
    exact ih hr hrest.symm _

/-- Texts that agree up to letter case are split into alternatives that do, and are answered alike.
-/
theorem resolveText_congr (h : r.SameCase r') (hscope : Option.Rel Scope.SameCase scope scope')
    {text text' : String} (htext : text.foldCase = text'.foldCase) :
    SameAnswer (resolveText scope text r) (resolveText scope' text' r') := by
  refine resolveAll_congr h hscope ?_
  rw [← splitAlternatives_foldCase, htext, splitAlternatives_foldCase]

end TypeExpr

/-! ## Runs -/

namespace Request

/-- The requests agree up to the letter case of annotations, words, names and scopes. -/
inductive SameCase : Request → Request → Prop
  | resolve {scope scope' : Option Scope} {fullyQualified : Bool} {text text' : String}
      (hscope : Option.Rel Scope.SameCase scope scope') (htext : text.foldCase = text'.foldCase) :
      SameCase (.resolve scope fullyQualified text) (.resolve scope' fullyQualified text')
  | resolveAll {scope scope' : Option Scope} {fullyQualified : Bool} {texts texts' : List String}
      (hscope : Option.Rel Scope.SameCase scope scope')
      (htexts : texts.map String.foldCase = texts'.map String.foldCase) :
      SameCase (.resolveAll scope fullyQualified texts) (.resolveAll scope' fullyQualified texts')
  | resolveText {scope scope' : Option Scope} {text text' : String}
      (hscope : Option.Rel Scope.SameCase scope scope') (htext : text.foldCase = text'.foldCase) :
      SameCase (.resolveText scope text) (.resolveText scope' text')
  | known {word word' : String} (hword : word.foldCase = word'.foldCase) :
      SameCase (.known word) (.known word')
  | arrayOf (element : Mask) : SameCase (.arrayOf element) (.arrayOf element)
  | nominal {text text' : String} {allowNull : Bool} (htext : text.foldCase = text'.foldCase) :
      SameCase (.nominal text allowNull) (.nominal text' allowNull)
  | union (a b : Mask) : SameCase (.union a b) (.union a b)
  | kindPart (m : Mask) : SameCase (.kindPart m) (.kindPart m)

/-- Requests that agree up to letter case are answered alike. -/
theorem SameCase.run_congr {q q' : Request} (hq : q.SameCase q') {r r' : Registry}
    (h : r.SameCase r') : Registry.SameAnswer (q.run r) (q'.run r') := by
  cases hq with
  | resolve hscope htext => exact TypeExpr.resolve_congr h hscope htext
  | resolveAll hscope htexts => exact TypeExpr.resolveAll_congr h hscope htexts
  | resolveText hscope htext => exact TypeExpr.resolveText_congr h hscope htext
  | known hword =>
    refine ⟨?_, h⟩
    show Keyword.maskOf _ = Keyword.maskOf _
    rw [Keyword.maskOf, Keyword.maskOf, Keyword.lookup?_congr hword]
  | arrayOf element => exact h.arrayOf element
  | nominal htext => exact h.nominalMask (QualifiedName.parse_congr htext) _
  | union a b => exact ⟨rfl, h⟩
  | kindPart m => exact ⟨rfl, h⟩

/-- Runs that start alike stay alike. -/
theorem runAll_congr {qs qs' : List Request} (hqs : List.Forall₂ SameCase qs qs')
    {r r' : Registry} (h : r.SameCase r') :
    (runAll qs r).1 = (runAll qs' r').1 ∧ (runAll qs r).2.SameCase (runAll qs' r').2 := by
  induction hqs generalizing r r' with
  | nil => exact ⟨rfl, h⟩
  | cons hq _ ih =>
    obtain ⟨hmask, hr⟩ := hq.run_congr h
    obtain ⟨hmasks, hrest⟩ := ih hr
    exact ⟨congrArg₂ List.cons hmask hmasks, hrest⟩

/-- **Letter case never matters.** Two runs on requests that agree position by position up to letter
case are answered with the same masks and end in the same slots, with descriptors that agree up to
the letter case of class names. -/
theorem runAll_sameCase {qs qs' : List Request} (hqs : List.Forall₂ SameCase qs qs') :
    (runAll qs .empty).1 = (runAll qs' .empty).1 ∧
      (runAll qs .empty).2.SameCase (runAll qs' .empty).2 :=
  runAll_congr hqs (.refl .empty)

/-- An imported class in two spellings of the alias and of its target, then a bracketed array. -/
theorem runAll_sameCase_of_import :
    (runAll [.resolve (some (Scope.empty.addAlias "Items" "Lib\\Bag")) false "Items[]",
          .resolveText none "?array[Lib\\Bag]"] .empty).1 =
        (runAll [.resolve (some (Scope.empty.addAlias "ITEMS" "lib\\BAG")) false "items[]",
          .resolveText none "?ARRAY[lib\\bag]"] .empty).1 ∧
      (runAll [.resolve (some (Scope.empty.addAlias "Items" "Lib\\Bag")) false "Items[]",
          .resolveText none "?array[Lib\\Bag]"] .empty).2.SameCase
        (runAll [.resolve (some (Scope.empty.addAlias "ITEMS" "lib\\BAG")) false "items[]",
          .resolveText none "?ARRAY[lib\\bag]"] .empty).2 := by
  have hscope : Option.Rel Scope.SameCase (some (Scope.empty.addAlias "Items" "Lib\\Bag"))
      (some (Scope.empty.addAlias "ITEMS" "lib\\BAG")) :=
    .some ((Scope.SameCase.refl .empty).addAlias (by decide) (by decide))
  exact runAll_sameCase <|
    .cons (.resolve hscope (by decide)) (.cons (.resolveText .none (by decide)) .nil)

end Request

end PhpTypes
