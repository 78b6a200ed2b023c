import PhpTypes.Proofs.Registry.Unfold
import PhpTypes.Proofs.Text.Pieces

/-!
# Masks of given types

An operation on a registry answers with a mask and the registry that the mask belongs to.
`Registry.Yields` says that such an answer denotes a given type and that nothing the registry held
before was touched. The masks of classes and arrays are answers of this kind
(`Registry.classMask_yields`, `Registry.arrayOf_yields`), and the only entry they can add is that of
the type itself.

`Registry.Covers` says that a registry has entries for the classes and arrays that a type lists. To
ask for the mask of a covered type adds nothing at all.
-/

namespace PhpTypes

namespace Registry

variable {r r' : Registry}

/-! ## Answers -/

/-- The answer of an operation on `r` is a mask of type `t`, in a registry that extends `r`. -/
structure Yields (r : Registry) (t : PhpType) (answer : Mask × Registry) : Prop where
  wellFormed : answer.2.WellFormed
  grows : r.Extends answer.2
  owns : answer.2.Owns answer.1
  typeOf_eq : answer.2.typeOf answer.1 = t

/-- Every entry of `new` that `old` lacks is of type `t`. -/
def AddsOnly (old new : Registry) (t : PhpType) : Prop :=
  ∀ slot, old.size ≤ slot → slot < new.size → new.slotType slot = t

/-- A mask that is known already is an answer of its own type. -/
theorem Yields.of_owns (h : r.WellFormed) {m : Mask} (hm : r.Owns m) :
    r.Yields (r.typeOf m) (m, r) :=
  ⟨h, .refl r, hm, rfl⟩

/-- Where no entry is added, none is of another type. -/
theorem AddsOnly.refl (r : Registry) (t : PhpType) : r.AddsOnly r t :=
  fun _ hle hlt => absurd hlt (Nat.not_lt.mpr hle)

/-- The mask without members unfolds to the type without members. -/
theorem typeOf_void (h : r.WellFormed) : r.typeOf .void = .void :=
  typeOf_of_slots_eq_empty h ∅

/-- A kind unfolds to itself. -/
theorem typeOf_ofKind (h : r.WellFormed) (k : Kind) :
    r.typeOf (.ofKind k) = .of (.single k) ∅ ∅ :=
  typeOf_of_slots_eq_empty h (.single k)

/-- Only the mask without members unfolds to the type without members. -/
theorem typeOf_eq_void_iff (h : r.WellFormed) {m : Mask} (hm : r.Owns m) :
    r.typeOf m = .void ↔ m = .void := by
  constructor
  · intro htype
    exact typeOf_injOn h hm .void (htype.trans (typeOf_void h).symm)
  · rintro rfl
    exact typeOf_void h

/-- The type of a descriptor depends on its key alone. -/
theorem descriptorType_congr {d e : Descriptor} (hkey : e.key = d.key) :
    r.descriptorType e = r.descriptorType d := by
  cases d with
  | classNamed name =>
    cases e with
    | classNamed name' =>
      have hfold : name'.foldCase = name.foldCase := TypeKey.classNamed.inj hkey
      rw [descriptorType, descriptorType, hfold]
    | arrayOf e => cases hkey
  | arrayOf m =>
    cases e with
    | classNamed name => cases hkey
    | arrayOf m' => rw [TypeKey.arrayOf.inj hkey]

/-- Entries that are added later do not change the type of a descriptor. -/
theorem descriptorType_extend (h : r.WellFormed) (hext : r.Extends r') {d : Descriptor}
    (hd : r.Admits d) : r'.descriptorType d = r.descriptorType d := by
  cases d with
  | classNamed name => rfl
  | arrayOf m => rw [descriptorType, descriptorType, typeOf_extend h hext hd.2.2]

/-- The mask under which an interned descriptor is handed out. -/
def internMask (r : Registry) (d : Descriptor) : Mask × Registry :=
  ((r.intern d).2.slotMask (r.intern d).1, (r.intern d).2)

/-- Interning yields the type of the descriptor and adds no entry of another type. -/
theorem internMask_yields (h : r.WellFormed) {d : Descriptor} (hd : r.Admits d) :
    r.Yields (r.descriptorType d) (r.internMask d) ∧
      r.AddsOnly (r.internMask d).2 (r.descriptorType d) := by
  obtain ⟨hwf, hext, ⟨e, he, hkey⟩, hadded⟩ := intern_spec h hd
  have htype : (r.intern d).2.slotType (r.intern d).1 = r.descriptorType d := by
    rw [slotType_eq hwf he, descriptorType_congr hkey, descriptorType_extend h hext hd]
  refine ⟨⟨hwf, hext, .slotMask (lt_size_of_descriptor? he), htype⟩, ?_⟩
  intro slot hle hlt
  show (r.intern d).2.slotType slot = _
  rw [hadded slot hle hlt, htype]

/-! ## Classes and arrays -/

/-- Asking for a class is interning its name, if no backslash comes first. -/
theorem classMask_eq (h : r.WellFormed) {name : String} (hname : name.toList.head? ≠ some '\\') :
    r.classMask name = r.internMask (.classNamed name) := by
  obtain ⟨-, -, ⟨e, he, hkey⟩, -⟩ := intern_spec h (d := .classNamed name) hname
  have hclass : ∃ name', e = .classNamed name' := by
    cases e with
    | classNamed name' => exact ⟨name', rfl⟩
    | arrayOf m => cases hkey
  obtain ⟨name', rfl⟩ := hclass
  have hdrop : String.ofList (Text.dropLead ['\\'] name.toList) = name := by
    rw [Text.dropLead_of_head?_ne hname, String.ofList_toList]
  rw [classMask, internMask, slotMask_of_class he]
  simp only [hdrop]
  rfl

/-- The mask of a class denotes the class, whatever its spelling in the registry. -/
theorem classMask_yields (h : r.WellFormed) {name : String}
    (hname : name.toList.head? ≠ some '\\') :
    r.Yields (.of ∅ {name.foldCase} ∅) (r.classMask name) ∧
      r.AddsOnly (r.classMask name).2 (.of ∅ {name.foldCase} ∅) := by
  rw [classMask_eq h hname]
  exact internMask_yields h (d := .classNamed name) hname

/-- Of arrays of nothing known, only the kind is recorded. -/
theorem arrayOf_of_unknown {m : Mask} (hm : m = .void ∨ m = .any) :
    r.arrayOf m = (.ofKind .array, r) := by
  rcases hm with rfl | rfl <;> rfl

/-- Asking for any other array is interning it. -/
theorem arrayOf_of_known (h : r.WellFormed) {m : Mask} (hm : r.Admits (.arrayOf m)) :
    r.arrayOf m = r.internMask (.arrayOf m) := by
  obtain ⟨-, -, ⟨e, he, hkey⟩, -⟩ := intern_spec h hm
  have harray : ∃ m', e = .arrayOf m' := by
    cases e with
    | classNamed name => cases hkey
    | arrayOf m' => exact ⟨m', rfl⟩
  obtain ⟨m', rfl⟩ := harray
  have hvoid : m.isVoid = false := by simpa [Mask.isVoid] using hm.1
  have hany : m.isAny = false := by
    cases m with
    | any => exact absurd rfl hm.2.1
    | of kinds slots => rfl
  rw [arrayOf, internMask, slotMask_of_array he, ← Mask.ofKind_union_ofSlot]
  simp [hvoid, hany]

/-- The arrays of a new element get the next slot. -/
theorem arrayOf_of_new (h : r.WellFormed) {e : Mask} (he : r.Admits (.arrayOf e))
    (hnew : .arrayOf e ∉ r.descriptors.toList) :
    r.arrayOf e = (.of (.single .array) (.single r.size), r.push (.arrayOf e)) := by
  have hintern : r.intern (.arrayOf e) = (r.size, r.push (.arrayOf e)) := by
    refine intern_of_new h fun slot d hd hkey => hnew ?_
    have hsame : d = .arrayOf e := by
      cases d with
      | classNamed name => cases hkey
      | arrayOf e' => rw [TypeKey.arrayOf.inj hkey]
    rw [← hsame]
    exact List.mem_of_getElem? ((descriptor?_eq_toList r slot).symm.trans hd)
  have hentry : (r.push (.arrayOf e)).descriptor? r.size = some (.arrayOf e) := by
    rw [descriptor?_push, if_pos rfl]
  rw [arrayOf_of_known h he, internMask, hintern, slotMask_of_array hentry]

/-- The mask of arrays with elements of a mask denotes the arrays of the type of that mask. -/
theorem arrayOf_yields (h : r.WellFormed) {m : Mask} (hm : r.Owns m) :
    r.Yields (.arrayOf (r.typeOf m)) (r.arrayOf m) ∧
      r.AddsOnly (r.arrayOf m).2 (.arrayOf (r.typeOf m)) := by
  have hiff : r.typeOf m = .void ∨ r.typeOf m = .any ↔ m = .void ∨ m = .any :=
    or_congr (typeOf_eq_void_iff h hm) (typeOf_eq_any_iff h hm)
  by_cases hunknown : m = .void ∨ m = .any
  · rw [arrayOf_of_unknown hunknown, PhpType.arrayOf, if_pos (hiff.mpr hunknown)]
    refine ⟨?_, .refl r _⟩
    rw [← typeOf_ofKind h]
    exact .of_owns h (.ofKind .array)
  · have hadmits : r.Admits (.arrayOf m) := by
      rw [not_or] at hunknown
      exact ⟨hunknown.1, hunknown.2, hm⟩
    rw [arrayOf_of_known h hadmits, PhpType.arrayOf, if_neg (fun hor => hunknown (hiff.mp hor))]
    exact internMask_yields h hadmits

/-! ## Covered types -/

/-- The registry has entries for all classes and arrays that the type lists. -/
structure Covers (r : Registry) (t : PhpType) : Prop where
  classes : ∀ kinds classes elements, t = .of kinds classes elements →
    ∀ folded ∈ classes, ∃ slot < r.size, r.slotType slot = .of ∅ {folded} ∅
  elements : ∀ kinds classes elements, t = .of kinds classes elements →
    ∀ element ∈ elements, ∃ slot < r.size, r.slotType slot = .of (.single .array) ∅ {element}

/-- The top lists nothing that an entry would be needed for. -/
theorem covers_any : r.Covers .any where
  classes _ _ _ h := absurd h (PhpType.any_ne_of _ _ _)
  elements _ _ _ h := absurd h (PhpType.any_ne_of _ _ _)

/-- A type is covered if there are entries for each of its classes and for the arrays of each of its
elements. -/
theorem covers_of_iff {kinds : KindSet} {classes : Finset String} {elements : Finset PhpType} :
    r.Covers (.of kinds classes elements) ↔
      (∀ folded ∈ classes, ∃ slot < r.size, r.slotType slot = .of ∅ {folded} ∅) ∧
        ∀ element ∈ elements, ∃ slot < r.size,
          r.slotType slot = .of (.single .array) ∅ {element} := by
  constructor
  · intro h
    exact ⟨h.classes _ _ _ rfl, h.elements _ _ _ rfl⟩
  · rintro ⟨hclasses, helements⟩
    constructor
    · intro k c es heq
      obtain ⟨-, rfl, -⟩ := PhpType.of_inj.mp heq
      exact hclasses
    · intro k c es heq
      obtain ⟨-, -, rfl⟩ := PhpType.of_inj.mp heq
      exact helements

/-- A registry covers the types of its masks. -/
theorem covers_typeOf (h : r.WellFormed) {m : Mask} (hm : r.Owns m) : r.Covers (r.typeOf m) := by
  cases m with
  | any =>
    rw [typeOf_any]
    exact covers_any
  | of kinds slots =>
    rw [typeOf_of h hm.lt_of_mem, covers_of_iff]
    constructor
    · intro folded hfolded
      obtain ⟨slot, hslot, name, hd, rfl⟩ := mem_classNames.mp hfolded
      exact ⟨slot, hm.slot_lt slot hslot, slotType_eq h hd⟩
    · intro element helement
      obtain ⟨e, he, rfl⟩ := Finset.mem_image.mp helement
      obtain ⟨slot, hslot, hd⟩ := mem_elementMasks.mp he
      exact ⟨slot, hm.slot_lt slot hslot, slotType_eq h hd⟩

/-- A registry still covers a type when entries are added. -/
theorem Covers.extend (h : r.WellFormed) (hext : r.Extends r') {t : PhpType} (hcovers : r.Covers t) :
    r'.Covers t where
  classes kinds classes elements ht folded hfolded := by
    obtain ⟨slot, hlt, htype⟩ := hcovers.classes kinds classes elements ht folded hfolded
    exact ⟨slot, Nat.lt_of_lt_of_le hlt hext.size_le, by rw [slotType_extend h hext hlt, htype]⟩
  elements kinds classes elements ht element helement := by
    obtain ⟨slot, hlt, htype⟩ := hcovers.elements kinds classes elements ht element helement
    exact ⟨slot, Nat.lt_of_lt_of_le hlt hext.size_le, by rw [slotType_extend h hext hlt, htype]⟩

/-- An answer comes with a registry that covers its type. -/
theorem Yields.covers {t : PhpType} {answer : Mask × Registry} (h : r.Yields t answer) :
    answer.2.Covers t := by
  rw [← h.typeOf_eq]
  exact covers_typeOf h.wellFormed h.owns

/-- A registry that covers a union other than the top covers both sides. -/
theorem Covers.of_union {a b : PhpType} (h : r.Covers (a ∪ b)) (hany : a ∪ b ≠ .any) :
    r.Covers a ∧ r.Covers b := by
  rcases a.eq_any_or_eq_of with rfl | ⟨k, c, es, rfl⟩
  · exact absurd (PhpType.any_union b) hany
  · rcases b.eq_any_or_eq_of with rfl | ⟨l, d, fs, rfl⟩
    · exact absurd (PhpType.union_any _) hany
    · rw [PhpType.of_union_of, covers_of_iff] at h
      rw [covers_of_iff, covers_of_iff]
      refine ⟨⟨?_, ?_⟩, ?_, ?_⟩
      · exact fun folded hf => h.1 folded (Finset.mem_union_left d hf)
      · exact fun element he => h.2 element (Finset.mem_union_left fs he)
      · exact fun folded hf => h.1 folded (Finset.mem_union_right c hf)
      · exact fun element he => h.2 element (Finset.mem_union_right es he)

/-- To intern a descriptor of a type that has an entry adds nothing. -/
theorem internMask_snd_of_slotType (h : r.WellFormed) {d : Descriptor} (hd : r.Admits d)
    {slot : Nat} (hlt : slot < r.size) (htype : r.slotType slot = r.descriptorType d) :
    (r.internMask d).2 = r := by
  obtain ⟨e, he, hkey⟩ : ∃ e, r.descriptor? slot = some e ∧ e.key = d.key := by
    cases d with
    | classNamed name =>
      obtain ⟨name', he, hfold⟩ := exists_class_of_slotType h hlt htype
      exact ⟨_, he, congrArg TypeKey.classNamed hfold⟩
    | arrayOf m =>
      obtain ⟨e, he, helement⟩ := exists_array_of_slotType h hlt htype
      exact ⟨_, he, congrArg TypeKey.arrayOf (typeOf_injOn h (h.owns_element he) hd.2.2 helement)⟩
  rw [internMask, intern_of_held h he hkey]

/-- To ask for a class that has an entry adds nothing. -/
theorem classMask_snd_of_covers (h : r.WellFormed) {name : String}
    (hname : name.toList.head? ≠ some '\\') {kinds : KindSet} {elements : Finset PhpType}
    (hcovers : r.Covers (.of kinds {name.foldCase} elements)) : (r.classMask name).2 = r := by
  obtain ⟨slot, hlt, htype⟩ :=
    (covers_of_iff.mp hcovers).1 name.foldCase (Finset.mem_singleton_self _)
  rw [classMask_eq h hname]
  exact internMask_snd_of_slotType h hname hlt htype

/-- To ask for an array type that is covered adds nothing. -/
theorem arrayOf_snd_of_covers (h : r.WellFormed) {m : Mask} (hm : r.Owns m)
    (hcovers : r.Covers (.arrayOf (r.typeOf m))) : (r.arrayOf m).2 = r := by
  by_cases hunknown : m = .void ∨ m = .any
  · rw [arrayOf_of_unknown hunknown]
  · have hadmits : r.Admits (.arrayOf m) := by
      rw [not_or] at hunknown
      exact ⟨hunknown.1, hunknown.2, hm⟩
    have hknown : ¬ (r.typeOf m = .void ∨ r.typeOf m = .any) := by
      rwa [typeOf_eq_void_iff h hm, typeOf_eq_any_iff h hm]
    rw [PhpType.arrayOf, if_neg hknown] at hcovers
    obtain ⟨slot, hlt, htype⟩ :=
      (covers_of_iff.mp hcovers).2 _ (Finset.mem_singleton_self (r.typeOf m))
    rw [arrayOf_of_known h hadmits]
    exact internMask_snd_of_slotType h hadmits hlt htype

/-- A registry that covers the arrays of a type covers the type. -/
theorem Covers.of_arrayOf (h : r.WellFormed) {t : PhpType} (hcovers : r.Covers (.arrayOf t)) :
    r.Covers t := by
  by_cases hunknown : t = .void ∨ t = .any
  · rcases hunknown with rfl | rfl
    · rw [PhpType.void, covers_of_iff]
      simp
    · exact covers_any
  · rw [PhpType.arrayOf, if_neg hunknown] at hcovers
    obtain ⟨slot, hlt, htype⟩ := (covers_of_iff.mp hcovers).2 t (Finset.mem_singleton_self t)
    obtain ⟨e, he, rfl⟩ := exists_array_of_slotType h hlt htype
    exact covers_typeOf h (h.owns_element he)

end Registry

end PhpTypes
