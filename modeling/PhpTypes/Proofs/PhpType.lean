import Mathlib.Data.Finset.Image
import Mathlib.Data.Quot
import PhpTypes.Mask.Basic

/-!
# Types without slots

A mask means something only together with the registry that its slots belong to. Unfolding every
slot gives a type that stands for itself: the top, or a set of primitive kinds, of class names in
lower case, and of arrays of such types.

`TypeTree` writes the elements of arrays as a list. `PhpType` forgets the order and the repetitions
in these lists, at every depth. It is used through `PhpType.any` and `PhpType.of`, which takes the
element types as a finite set, and through `PhpType.members?`, which gives them back.
-/

namespace PhpTypes

/-- An unfolded type with the element types of its arrays in some order. -/
inductive TypeTree where
  /-- Every type. -/
  | any
  /-- The given kinds, the classes with the given folded names, and arrays of the given types. -/
  | of (kinds : KindSet) (classes : Finset String) (elements : List TypeTree)

namespace TypeTree

/-- Two trees have the same members, where arrays count as the same if their elements do. -/
def Same : TypeTree → TypeTree → Prop
  | any, any => True
  | any, of _ _ _ => False
  | of _ _ _, any => False
  | of k c es, of l d fs =>
    k = l ∧ c = d ∧ (∀ e, ∀ _ : e ∈ es, ∃ f ∈ fs, Same e f) ∧
      ∀ f ∈ fs, ∃ e, ∃ _ : e ∈ es, Same e f

/-- Trees with members are the same if they have the same kinds and classes, and if the elements of
each occur in the other. -/
theorem same_of_iff {k l : KindSet} {c d : Finset String} {es fs : List TypeTree} :
    Same (of k c es) (of l d fs) ↔ k = l ∧ c = d ∧ (∀ e ∈ es, ∃ f ∈ fs, Same e f) ∧
      ∀ f ∈ fs, ∃ e ∈ es, Same e f := by
  rw [Same]
  simp only [exists_prop]

/-- Every tree is the same as itself. -/
theorem Same.refl : (t : TypeTree) → Same t t
  | any => by rw [Same]; trivial
  | of _ _ es => by
    rw [same_of_iff]
    exact ⟨rfl, rfl, fun e he => ⟨e, he, Same.refl e⟩, fun e he => ⟨e, he, Same.refl e⟩⟩

/-- Which of two trees comes first does not matter. -/
theorem Same.symm : {a b : TypeTree} → Same a b → Same b a
  | any, any, h => h
  | any, of _ _ _, h => by simp [Same] at h
  | of _ _ _, any, h => by simp [Same] at h
  | of k c es, of l d fs, h => by
    obtain ⟨hk, hc, hef, hfe⟩ := same_of_iff.mp h
    refine same_of_iff.mpr ⟨hk.symm, hc.symm, ?_, ?_⟩
    · intro f hf
      obtain ⟨e, he, hsame⟩ := hfe f hf
      exact ⟨e, he, Same.symm hsame⟩
    · intro e he
      obtain ⟨f, hf, hsame⟩ := hef e he
      exact ⟨f, hf, Same.symm hsame⟩

/-- Trees that are the same as a third one are the same. -/
theorem Same.trans : {a b c : TypeTree} → Same a b → Same b c → Same a c
  | any, any, _, _, h => h
  | any, of _ _ _, _, h, _ => by simp [Same] at h
  | of _ _ _, any, _, h, _ => by simp [Same] at h
  | of _ _ _, of _ _ _, any, _, h => by simp [Same] at h
  | of k c es, of l d fs, of m e gs, h, h' => by
    obtain ⟨hk, hc, hef, hfe⟩ := same_of_iff.mp h
    obtain ⟨hk', hc', hfg, hgf⟩ := same_of_iff.mp h'
    refine same_of_iff.mpr ⟨hk.trans hk', hc.trans hc', ?_, ?_⟩
    · intro x hx
      obtain ⟨y, hy, hxy⟩ := hef x hx
      obtain ⟨z, hz, hyz⟩ := hfg y hy
      exact ⟨z, hz, Same.trans hxy hyz⟩
    · intro z hz
      obtain ⟨y, hy, hyz⟩ := hgf z hz
      obtain ⟨x, hx, hxy⟩ := hfe y hy
      exact ⟨x, hx, Same.trans hxy hyz⟩

instance setoid : Setoid TypeTree where
  r := Same
  iseqv := ⟨Same.refl, Same.symm, Same.trans⟩

end TypeTree

/-- A type: the top, or a set of primitive kinds, class names and arrays of types. -/
def PhpType : Type :=
  Quotient TypeTree.setoid

namespace PhpType

open TypeTree (Same same_of_iff)

noncomputable instance : DecidableEq PhpType :=
  Classical.decEq _

/-- The type that a tree describes. -/
def ofTree (t : TypeTree) : PhpType :=
  Quotient.mk _ t

/-- Trees describe one type exactly if they are the same. -/
theorem ofTree_eq_iff {a b : TypeTree} : ofTree a = ofTree b ↔ Same a b :=
  Quotient.eq

/-- A tree that describes the type. -/
noncomputable def tree (t : PhpType) : TypeTree :=
  Quotient.out t

/-- The tree of a type describes the type. -/
theorem ofTree_tree (t : PhpType) : ofTree t.tree = t :=
  Quotient.out_eq t

/-- The tree of a described type is the same as the describing one, though perhaps in another order.
-/
theorem same_tree_ofTree (t : TypeTree) : Same (ofTree t).tree t :=
  ofTree_eq_iff.mp (ofTree_tree _)

/-- Every type. -/
def any : PhpType :=
  ofTree .any

/-- The type with the given kinds, folded class names and element types of arrays. -/
noncomputable def of (kinds : KindSet) (classes : Finset String) (elements : Finset PhpType) :
    PhpType :=
  ofTree (.of kinds classes (elements.toList.map tree))

/-! ## The members of a type -/

/-- The members that a tree lists at its top; the top of all types has no list of members. -/
noncomputable def treeMembers? : TypeTree → Option (KindSet × Finset String × Finset PhpType)
  | .any => none
  | .of kinds classes elements => some (kinds, classes, (elements.map ofTree).toFinset)

/-- Trees that are the same list the same members. -/
theorem treeMembers?_congr : {a b : TypeTree} → Same a b → treeMembers? a = treeMembers? b
  | .any, .any, _ => rfl
  | .any, .of _ _ _, h => by simp [Same] at h
  | .of _ _ _, .any, h => by simp [Same] at h
  | .of k c es, .of l d fs, h => by
    obtain ⟨rfl, rfl, hef, hfe⟩ := same_of_iff.mp h
    have helements : (es.map ofTree).toFinset = (fs.map ofTree).toFinset := by
      ext t
      simp only [List.mem_toFinset, List.mem_map]
      constructor
      · rintro ⟨e, he, rfl⟩
        obtain ⟨f, hf, hsame⟩ := hef e he
        exact ⟨f, hf, ofTree_eq_iff.mpr hsame.symm⟩
      · rintro ⟨f, hf, rfl⟩
        obtain ⟨e, he, hsame⟩ := hfe f hf
        exact ⟨e, he, ofTree_eq_iff.mpr hsame⟩
    rw [treeMembers?, treeMembers?, helements]

/-- The kinds, class names and element types of a type; the top has no list of members. -/
noncomputable def members? (t : PhpType) : Option (KindSet × Finset String × Finset PhpType) :=
  Quotient.liftOn t treeMembers? fun _ _ => treeMembers?_congr

@[simp] theorem members?_any : any.members? = none := rfl

/-- A type has the members it was made of. -/
@[simp] theorem members?_of (kinds : KindSet) (classes : Finset String)
    (elements : Finset PhpType) :
    (of kinds classes elements).members? = some (kinds, classes, elements) := by
  have helements : ((elements.toList.map tree).map ofTree).toFinset = elements := by
    have hid : ofTree ∘ tree = id := funext ofTree_tree
    rw [List.map_map, hid, List.map_id, Finset.toList_toFinset]
  show some (kinds, classes, _) = _
  rw [helements]

/-- A type is the top or has members. -/
theorem eq_any_or_eq_of (t : PhpType) :
    t = any ∨ ∃ kinds classes elements, t = of kinds classes elements := by
  obtain ⟨t, rfl⟩ : ∃ tree, ofTree tree = t := ⟨t.tree, ofTree_tree t⟩
  cases t with
  | any => exact .inl rfl
  | of kinds classes elements =>
    refine .inr ⟨kinds, classes, (elements.map ofTree).toFinset, ?_⟩
    refine ofTree_eq_iff.mpr (same_of_iff.mpr ⟨rfl, rfl, ?_, ?_⟩)
    · intro e he
      have hmem : ofTree e ∈ (elements.map ofTree).toFinset :=
        List.mem_toFinset.mpr (List.mem_map_of_mem he)
      exact ⟨_, List.mem_map_of_mem (Finset.mem_toList.mpr hmem), (same_tree_ofTree e).symm⟩
    · intro f hf
      obtain ⟨t, ht, rfl⟩ := List.mem_map.mp hf
      obtain ⟨e, he, rfl⟩ := List.mem_map.mp (List.mem_toFinset.mp (Finset.mem_toList.mp ht))
      exact ⟨e, he, (same_tree_ofTree e).symm⟩

/-- A type with members is not the top. -/
@[simp] theorem of_ne_any (kinds : KindSet) (classes : Finset String)
    (elements : Finset PhpType) : of kinds classes elements ≠ any := by
  intro h
  simpa using congrArg members? h

/-- The top is not a type with members. -/
@[simp] theorem any_ne_of (kinds : KindSet) (classes : Finset String)
    (elements : Finset PhpType) : any ≠ of kinds classes elements :=
  Ne.symm (of_ne_any kinds classes elements)

/-- A type determines its kinds, its class names and its element types. -/
@[simp] theorem of_inj {k l : KindSet} {c d : Finset String} {es fs : Finset PhpType} :
    of k c es = of l d fs ↔ k = l ∧ c = d ∧ es = fs := by
  constructor
  · intro h
    simpa using congrArg members? h
  · rintro ⟨rfl, rfl, rfl⟩
    rfl

/-! ## Operations -/

/-- The type without members. -/
noncomputable def void : PhpType :=
  of ∅ ∅ ∅

/-- The types that belong to one of two types; the top absorbs every type. -/
protected noncomputable def union (a b : PhpType) : PhpType :=
  match a.members?, b.members? with
  | some (k, c, es), some (l, d, fs) => of (k ∪ l) (c ∪ d) (es ∪ fs)
  | _, _ => any

noncomputable instance : Union PhpType where
  union := PhpType.union

/-- Arrays of a type. Of arrays whose elements are of type `void` or of every type, only the kind
is known. -/
noncomputable def arrayOf (element : PhpType) : PhpType :=
  if element = void ∨ element = any then of (.single .array) ∅ ∅
  else of (.single .array) ∅ {element}

@[simp] theorem any_union (t : PhpType) : any ∪ t = any := rfl

/-- The top absorbs every type. -/
@[simp] theorem union_any (t : PhpType) : t ∪ any = any := by
  show PhpType.union t any = any
  unfold PhpType.union
  split
  · next h => simp at h
  · rfl

/-- Types with members are united member by member. -/
@[simp] theorem of_union_of (k l : KindSet) (c d : Finset String) (es fs : Finset PhpType) :
    of k c es ∪ of l d fs = of (k ∪ l) (c ∪ d) (es ∪ fs) := by
  show PhpType.union _ _ = _
  simp only [PhpType.union, members?_of]

end PhpType

end PhpTypes
