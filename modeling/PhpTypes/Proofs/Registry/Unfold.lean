import PhpTypes.Proofs.PhpType
import PhpTypes.Proofs.Registry.WellFormed

/-!
# Unfolding masks

`Registry.typeOf` replaces every slot of a mask by what it stands for, down to the innermost
elements. In a well-formed registry it satisfies the equation one expects (`Registry.typeOf_of`),
does not change when entries are added (`Registry.typeOf_extend`), and turns unions of masks into
unions of types (`Registry.typeOf_union`).

The main statement is `Registry.typeOf_injOn`: a well-formed registry has only one mask for each
type. It rests on the index, which gives a class name or an element mask one slot, and on the order
of the entries, by which the elements of an array may be compared before the array itself.
-/

namespace PhpTypes

namespace Registry

variable {r r' : Registry}

/-! ## Classes and elements behind slots -/

/-- The name in lower case of the class at a slot. -/
def className? (r : Registry) (slot : Nat) : Option String :=
  match r.descriptor? slot with
  | some (.classNamed name) => some name.foldCase
  | _ => none

/-- The element mask of the array at a slot. -/
def elementMask? (r : Registry) (slot : Nat) : Option Mask :=
  match r.descriptor? slot with
  | some (.arrayOf e) => some e
  | _ => none

/-- The names in lower case of the classes among slots. -/
def classNames (r : Registry) (slots : SlotSet) : Finset String :=
  (slots.toList.filterMap r.className?).toFinset

/-- The element masks of the arrays among slots. -/
def elementMasks (r : Registry) (slots : SlotSet) : Finset Mask :=
  (slots.toList.filterMap r.elementMask?).toFinset

/-- A folded class name stands at a slot exactly if a class with some spelling of it does. -/
theorem className?_eq_some {slot : Nat} {folded : String} : r.className? slot = some folded ↔
    ∃ name, r.descriptor? slot = some (.classNamed name) ∧ name.foldCase = folded := by
  unfold className?
  split
  · next name h => simp [h]
  · next h =>
    constructor
    · intro hnone
      cases hnone
    · rintro ⟨name, hname, -⟩
      exact absurd hname (h name)

/-- An element mask stands at a slot exactly if an array of it does. -/
theorem elementMask?_eq_some {slot : Nat} {e : Mask} :
    r.elementMask? slot = some e ↔ r.descriptor? slot = some (.arrayOf e) := by
  unfold elementMask?
  split
  · next e h => simp [h]
  · next h =>
    constructor
    · intro hnone
      cases hnone
    · intro he
      exact absurd he (h e)

/-- The folded names are those of the classes at the slots. -/
theorem mem_classNames {slots : SlotSet} {folded : String} : folded ∈ r.classNames slots ↔
    ∃ slot ∈ slots, ∃ name, r.descriptor? slot = some (.classNamed name) ∧
      name.foldCase = folded := by
  simp only [classNames, List.mem_toFinset, List.mem_filterMap, className?_eq_some,
    SlotSet.mem_toList]

/-- The element masks are those of the arrays at the slots. -/
theorem mem_elementMasks {slots : SlotSet} {e : Mask} :
    e ∈ r.elementMasks slots ↔ ∃ slot ∈ slots, r.descriptor? slot = some (.arrayOf e) := by
  simp only [elementMasks, List.mem_toFinset, List.mem_filterMap, elementMask?_eq_some,
    SlotSet.mem_toList]

/-- Uniting slots unites the classes at them. -/
theorem classNames_union (r : Registry) (s t : SlotSet) :
    r.classNames (s ∪ t) = r.classNames s ∪ r.classNames t := by
  ext folded
  simp only [mem_classNames, Finset.mem_union, SlotSet.mem_union, or_and_right, exists_or]

/-- Uniting slots unites the elements of the arrays at them. -/
theorem elementMasks_union (r : Registry) (s t : SlotSet) :
    r.elementMasks (s ∪ t) = r.elementMasks s ∪ r.elementMasks t := by
  ext e
  simp only [mem_elementMasks, Finset.mem_union, SlotSet.mem_union, or_and_right, exists_or]

/-- Entries that are added later do not change the classes at slots that there were before. -/
theorem Extends.classNames_eq {slots : SlotSet} (h : r.Extends r')
    (hslots : ∀ slot ∈ slots, slot < r.size) : r'.classNames slots = r.classNames slots := by
  ext folded
  simp only [mem_classNames]
  refine exists_congr fun slot => and_congr_right fun hslot => ?_
  rw [h.descriptor?_eq (hslots slot hslot)]

/-- Entries that are added later do not change the elements at slots that there were before. -/
theorem Extends.elementMasks_eq {slots : SlotSet} (h : r.Extends r')
    (hslots : ∀ slot ∈ slots, slot < r.size) : r'.elementMasks slots = r.elementMasks slots := by
  ext e
  simp only [mem_elementMasks]
  refine exists_congr fun slot => and_congr_right fun hslot => ?_
  rw [h.descriptor?_eq (hslots slot hslot)]

/-- Where there are no slots, there are no elements. -/
theorem elementMasks_eq_empty {slots : SlotSet} (h : ∀ slot ∈ slots, slot < 0) :
    r.elementMasks slots = ∅ := by
  rw [Finset.eq_empty_iff_forall_notMem]
  intro e he
  obtain ⟨slot, hslot, -⟩ := mem_elementMasks.mp he
  exact absurd (h slot hslot) (Nat.not_lt_zero slot)

/-! ## The type of a mask -/

/-- The type of a mask, followed through the given number of nested arrays. -/
noncomputable def typeWithin (r : Registry) : Nat → Mask → PhpType
  | _, .any => .any
  | 0, .of kinds slots => .of kinds (r.classNames slots) ∅
  | depth + 1, .of kinds slots =>
    .of kinds (r.classNames slots) ((r.elementMasks slots).image (r.typeWithin depth))

/-- The type of a mask. Elements come before their array, so no chain of nested arrays is longer
than the registry. -/
noncomputable def typeOf (r : Registry) (m : Mask) : PhpType :=
  r.typeWithin r.size m

/-- Once every slot is below the depth, neither a greater depth nor later entries matter. -/
theorem typeWithin_eq (h : r.WellFormed) (hext : r.Extends r') (depth depth' : Nat) (m : Mask)
    (hm : ∀ slot ∈ m.slots, slot < depth ∧ slot < depth' ∧ slot < r.size) :
    r'.typeWithin depth' m = r.typeWithin depth m := by
  -- The depths count down together; the one that is used up first leaves no elements.
  induction depth generalizing depth' m with
  | zero =>
    cases m with
    | any => simp [typeWithin]
    | of kinds slots =>
      have hempty (q : Registry) : q.elementMasks slots = ∅ :=
        elementMasks_eq_empty fun slot hslot => (hm slot hslot).1
      have hnames : r'.classNames slots = r.classNames slots :=
        hext.classNames_eq fun slot hslot => (hm slot hslot).2.2
      cases depth' <;> simp [typeWithin, hempty, hnames]
  | succ depth ih =>
    cases m with
    | any => simp [typeWithin]
    | of kinds slots =>
      have hnames : r'.classNames slots = r.classNames slots :=
        hext.classNames_eq fun slot hslot => (hm slot hslot).2.2
      have hmasks : r'.elementMasks slots = r.elementMasks slots :=
        hext.elementMasks_eq fun slot hslot => (hm slot hslot).2.2
      cases depth' with
      | zero =>
        have hempty (q : Registry) : q.elementMasks slots = ∅ :=
          elementMasks_eq_empty fun slot hslot => (hm slot hslot).2.1
        simp [typeWithin, hempty, hnames]
      | succ depth' =>
        simp only [typeWithin, hnames, hmasks]
        congr 1
        refine Finset.image_congr fun e he => ?_
        obtain ⟨slot, hslot, he⟩ := mem_elementMasks.mp he
        obtain ⟨hdepth, hdepth', hsize⟩ := hm slot hslot
        refine ih depth' e fun inner hinner => ?_
        have hlt := h.element_lt slot e he inner hinner
        omega

/-- Entries that are added later do not change the type of a mask. -/
theorem typeOf_extend (h : r.WellFormed) (hext : r.Extends r') {m : Mask} (hm : r.Owns m) :
    r'.typeOf m = r.typeOf m := by
  refine typeWithin_eq h hext r.size r'.size m fun slot hslot => ?_
  have hlt := hm.slot_lt slot hslot
  exact ⟨hlt, Nat.lt_of_lt_of_le hlt hext.size_le, hlt⟩

/-- The top unfolds to the top. -/
@[simp] theorem typeOf_any (r : Registry) : r.typeOf .any = .any := by
  simp [typeOf, typeWithin]

/-- The type of a mask lists its kinds, its classes and the types of its elements. -/
theorem typeOf_of (h : r.WellFormed) {kinds : KindSet} {slots : SlotSet}
    (hslots : ∀ slot ∈ slots, slot < r.size) :
    r.typeOf (.of kinds slots) =
      .of kinds (r.classNames slots) ((r.elementMasks slots).image r.typeOf) := by
  cases hsize : r.size with
  | zero =>
    have hempty : r.elementMasks slots = ∅ :=
      elementMasks_eq_empty fun slot hslot => hsize ▸ hslots slot hslot
    simp [typeOf, hsize, typeWithin, hempty]
  | succ n =>
    have helements : (r.elementMasks slots).image (r.typeWithin n) =
        (r.elementMasks slots).image r.typeOf := by
      refine Finset.image_congr fun e he => ?_
      obtain ⟨slot, hslot, he⟩ := mem_elementMasks.mp he
      refine (typeWithin_eq h (.refl r) n r.size e fun inner hinner => ?_).symm
      have hlt := h.element_lt slot e he inner hinner
      have hslot := hslots slot hslot
      omega
    rw [← helements, typeOf, hsize, typeWithin]

/-- A mask without slots unfolds to its kinds. -/
theorem typeOf_of_slots_eq_empty (h : r.WellFormed) (kinds : KindSet) :
    r.typeOf (.of kinds ∅) = .of kinds ∅ ∅ := by
  have hnone : ∀ slot ∈ (∅ : SlotSet), slot < r.size :=
    fun slot hslot => absurd hslot (SlotSet.not_mem_empty slot)
  rw [typeOf_of h hnone]
  rfl

/-- Only the top unfolds to the top. -/
theorem typeOf_eq_any_iff (h : r.WellFormed) {m : Mask} (hm : r.Owns m) :
    r.typeOf m = .any ↔ m = .any := by
  cases m with
  | any => simp
  | of kinds slots => simp [typeOf_of h hm.lt_of_mem]

/-- The type of a union of masks is the union of their types. -/
theorem typeOf_union (h : r.WellFormed) {a b : Mask} (ha : r.Owns a) (hb : r.Owns b) :
    r.typeOf (a ∪ b) = r.typeOf a ∪ r.typeOf b := by
  cases a with
  | any => simp
  | of k s =>
    cases b with
    | any => simp
    | of l t =>
      rw [Mask.of_union_of, typeOf_of h (ha.union hb).lt_of_mem, typeOf_of h ha.lt_of_mem,
        typeOf_of h hb.lt_of_mem, classNames_union, elementMasks_union, Finset.image_union,
        PhpType.of_union_of]

/-! ## The type of an entry -/

/-- The type of the mask under which an entry is handed out. -/
noncomputable def slotType (r : Registry) (slot : Nat) : PhpType :=
  r.typeOf (r.slotMask slot)

/-- The type that a descriptor stands for. -/
noncomputable def descriptorType (r : Registry) : Descriptor → PhpType
  | .classNamed name => .of ∅ {name.foldCase} ∅
  | .arrayOf e => .of (.single .array) ∅ {r.typeOf e}

/-- The type of an entry is that of its descriptor. -/
theorem slotType_eq (h : r.WellFormed) {slot : Nat} {d : Descriptor}
    (hd : r.descriptor? slot = some d) : r.slotType slot = r.descriptorType d := by
  have hlt : ∀ n ∈ SlotSet.single slot, n < r.size := by
    intro n hn
    rw [SlotSet.mem_single.mp hn]
    exact lt_size_of_descriptor? hd
  cases d with
  | classNamed name =>
    have hnames : r.classNames (.single slot) = {name.foldCase} := by
      ext folded
      simp [mem_classNames, hd, eq_comm]
    have hmasks : r.elementMasks (.single slot) = ∅ := by
      ext e
      simp [mem_elementMasks, hd]
    rw [slotType, slotMask_of_class hd, typeOf_of h hlt, hnames, hmasks]
    rfl
  | arrayOf e =>
    have hnames : r.classNames (.single slot) = ∅ := by
      ext folded
      simp [mem_classNames, hd]
    have hmasks : r.elementMasks (.single slot) = {e} := by
      ext e'
      simp [mem_elementMasks, hd, eq_comm]
    rw [slotType, slotMask_of_array hd, typeOf_of h hlt, hnames, hmasks, Finset.image_singleton]
    rfl

/-- An entry of the type of a class is a class of the same folded name. -/
theorem exists_class_of_slotType (h : r.WellFormed) {slot : Nat} {folded : String}
    (hlt : slot < r.size) (htype : r.slotType slot = .of ∅ {folded} ∅) :
    ∃ name, r.descriptor? slot = some (.classNamed name) ∧ name.foldCase = folded := by
  obtain ⟨d, hd⟩ := exists_descriptor?_of_lt hlt
  rw [slotType_eq h hd] at htype
  cases d with
  | classNamed name =>
    obtain ⟨-, hname, -⟩ := PhpType.of_inj.mp htype
    exact ⟨name, hd, Finset.singleton_inj.mp hname⟩
  | arrayOf e =>
    obtain ⟨-, hname, -⟩ := PhpType.of_inj.mp htype
    exact absurd hname.symm (Finset.singleton_ne_empty folded)

/-- An entry of the type of an array is an array with elements of the same type. -/
theorem exists_array_of_slotType (h : r.WellFormed) {slot : Nat} {element : PhpType}
    (hlt : slot < r.size) (htype : r.slotType slot = .of (.single .array) ∅ {element}) :
    ∃ e, r.descriptor? slot = some (.arrayOf e) ∧ r.typeOf e = element := by
  obtain ⟨d, hd⟩ := exists_descriptor?_of_lt hlt
  rw [slotType_eq h hd] at htype
  cases d with
  | classNamed name =>
    obtain ⟨-, hname, -⟩ := PhpType.of_inj.mp htype
    exact absurd hname (Finset.singleton_ne_empty _)
  | arrayOf e =>
    obtain ⟨-, -, helement⟩ := PhpType.of_inj.mp htype
    exact ⟨e, hd, Finset.singleton_inj.mp helement⟩

/-- Masks of the same type refer to entries of the same types. -/
theorem exists_mem_slotType_eq (h : r.WellFormed) (h' : r'.WellFormed) {m m' : Mask}
    (hm : r.Owns m) (hm' : r'.Owns m') (htype : r'.typeOf m' = r.typeOf m) {slot : Nat}
    (hslot : slot ∈ m.slots) : ∃ slot' ∈ m'.slots, r'.slotType slot' = r.slotType slot := by
  cases m with
  | any => exact absurd hslot (SlotSet.not_mem_empty slot)
  | of kinds slots =>
    cases m' with
    | any =>
      rw [typeOf_any, typeOf_of h hm.lt_of_mem] at htype
      exact absurd htype (PhpType.any_ne_of _ _ _)
    | of kinds' slots' =>
      rw [typeOf_of h hm.lt_of_mem, typeOf_of h' hm'.lt_of_mem] at htype
      obtain ⟨-, hnames, helements⟩ := PhpType.of_inj.mp htype
      obtain ⟨d, hd⟩ := exists_descriptor?_of_lt (hm.slot_lt slot hslot)
      -- A class is found by its folded name, an array by the type of its elements.
      cases d with
      | classNamed name =>
        have hmem : name.foldCase ∈ r'.classNames slots' :=
          hnames ▸ mem_classNames.mpr ⟨slot, hslot, name, hd, rfl⟩
        obtain ⟨slot', hslot', name', hd', hfold⟩ := mem_classNames.mp hmem
        refine ⟨slot', hslot', ?_⟩
        rw [slotType_eq h hd, slotType_eq h' hd', descriptorType, descriptorType, hfold]
      | arrayOf e =>
        have hmem : r.typeOf e ∈ (r'.elementMasks slots').image r'.typeOf :=
          helements ▸ Finset.mem_image_of_mem _ (mem_elementMasks.mpr ⟨slot, hslot, hd⟩)
        obtain ⟨e', he', heq⟩ := Finset.mem_image.mp hmem
        obtain ⟨slot', hslot', hd'⟩ := mem_elementMasks.mp he'
        refine ⟨slot', hslot', ?_⟩
        rw [slotType_eq h hd, slotType_eq h' hd', descriptorType, descriptorType, heq]

/-! ## A type has one mask -/

/-- Among masks of the same type, each refers to the slots of the other, if equal element types
come from equal element masks. -/
private theorem mem_slots_of_typeOf_eq (h : r.WellFormed) {a b : Mask} (ha : r.Owns a)
    (hb : r.Owns b) (htype : r.typeOf a = r.typeOf b)
    (hunique : ∀ slot ∈ a.slots, ∀ slot' ∈ b.slots, ∀ e e',
      r.descriptor? slot = some (.arrayOf e) → r.descriptor? slot' = some (.arrayOf e') →
      r.typeOf e = r.typeOf e' → e = e') {slot : Nat} (hslot : slot ∈ a.slots) :
    slot ∈ b.slots := by
  obtain ⟨slot', hslot', heq⟩ := exists_mem_slotType_eq h h ha hb htype.symm hslot
  obtain ⟨d, hd⟩ := exists_descriptor?_of_lt (ha.slot_lt slot hslot)
  have hlt' := hb.slot_lt slot' hslot'
  rw [slotType_eq h hd] at heq
  suffices hsame : slot = slot' by rwa [hsame]
  cases d with
  | classNamed name =>
    obtain ⟨name', hd', hfold⟩ := exists_class_of_slotType h hlt' heq
    exact h.slot_unique hd hd' (congrArg TypeKey.classNamed hfold.symm)
  | arrayOf e =>
    obtain ⟨e', hd', helement⟩ := exists_array_of_slotType h hlt' heq
    have hee' : e = e' := hunique slot hslot slot' hslot' e e' hd hd' helement.symm
    exact h.slot_unique hd hd' (congrArg TypeKey.arrayOf hee')

/-- **A type has at most one mask.** Masks of a well-formed registry that unfold to the same type
are equal. -/
theorem typeOf_injOn (h : r.WellFormed) {a b : Mask} (ha : r.Owns a) (hb : r.Owns b)
    (htype : r.typeOf a = r.typeOf b) : a = b := by
  -- The induction is on a bound of the slots of `a`, which the slots of its elements undercut.
  have hlt := ha.slot_lt
  generalize r.size = bound at hlt
  induction bound using Nat.strong_induction_on generalizing a b with
  | _ bound ih =>
    have hunique : ∀ slot ∈ a.slots, ∀ slot' ∈ b.slots, ∀ e e',
        r.descriptor? slot = some (.arrayOf e) → r.descriptor? slot' = some (.arrayOf e') →
        r.typeOf e = r.typeOf e' → e = e' := by
      intro slot hslot slot' _ e e' he he' heq
      exact ih slot (hlt slot hslot) (h.owns_element he) (h.owns_element he') heq
        (h.element_lt slot e he)
    cases a with
    | any => exact ((typeOf_eq_any_iff h hb).mp (htype.symm.trans (typeOf_any r))).symm
    | of k s =>
      cases b with
      | any => exact (typeOf_eq_any_iff h ha).mp (htype.trans (typeOf_any r))
      | of l t =>
        have hkinds : k = l := by
          rw [typeOf_of h ha.lt_of_mem, typeOf_of h hb.lt_of_mem] at htype
          exact (PhpType.of_inj.mp htype).1
        have hslots : s = t := by
          refine SlotSet.ext fun slot => ⟨fun hslot => ?_, fun hslot => ?_⟩
          · exact mem_slots_of_typeOf_eq h ha hb htype hunique hslot
          · refine mem_slots_of_typeOf_eq h hb ha htype.symm ?_ hslot
            intro slot hslot slot' hslot' e e' he he' heq
            exact (hunique slot' hslot' slot hslot e' e he' he heq.symm).symm
        rw [hkinds, hslots]

/-- Different entries are of different types. -/
theorem slotType_injOn (h : r.WellFormed) {slot slot' : Nat} (hlt : slot < r.size)
    (hlt' : slot' < r.size) (htype : r.slotType slot = r.slotType slot') : slot = slot' := by
  have hmask := typeOf_injOn h (.slotMask hlt) (.slotMask hlt') htype
  have hmem : slot ∈ (r.slotMask slot').slots := hmask ▸ mem_slots_slotMask.mpr rfl
  exact mem_slots_slotMask.mp hmem

/-- Entries that are added later do not change the type of an entry. -/
theorem slotType_extend (h : r.WellFormed) (hext : r.Extends r') {slot : Nat}
    (hlt : slot < r.size) : r'.slotType slot = r.slotType slot := by
  have hmask : r'.slotMask slot = r.slotMask slot := by
    rw [slotMask, slotMask, hext.descriptor?_eq hlt]
  rw [slotType, slotType, hmask, typeOf_extend h hext (.slotMask hlt)]

/-! ## Entries that a mask depends on -/

/-- The slots of a mask, the slots of the elements at these slots, and so on. -/
inductive Reaches (r : Registry) (m : Mask) : Nat → Prop
  | mask {slot : Nat} (hslot : slot ∈ m.slots) : Reaches r m slot
  | element {slot inner : Nat} {e : Mask} (hreach : Reaches r m slot)
      (he : r.descriptor? slot = some (.arrayOf e)) (hinner : inner ∈ e.slots) : Reaches r m inner

/-- A mask of the registry only depends on slots of the registry. -/
theorem Reaches.lt_size (h : r.WellFormed) {m : Mask} (hm : r.Owns m) {slot : Nat}
    (hreach : r.Reaches m slot) : slot < r.size := by
  cases hreach with
  | mask hslot => exact hm.slot_lt slot hslot
  | element _ he hinner => exact (h.owns_element he).slot_lt slot hinner

/-- Masks of the same type depend on entries of the same types. -/
theorem Reaches.exists_slotType_eq (h : r.WellFormed) (h' : r'.WellFormed) {m m' : Mask}
    (hm : r.Owns m) (hm' : r'.Owns m') (htype : r'.typeOf m' = r.typeOf m) {slot : Nat}
    (hreach : r.Reaches m slot) :
    ∃ slot', r'.Reaches m' slot' ∧ r'.slotType slot' = r.slotType slot := by
  induction hreach with
  | mask hslot =>
    obtain ⟨slot', hslot', heq⟩ := exists_mem_slotType_eq h h' hm hm' htype hslot
    exact ⟨slot', .mask hslot', heq⟩
  | element hreach he hinner ih =>
    obtain ⟨slot', hreach', heq⟩ := ih
    rw [slotType_eq h he] at heq
    obtain ⟨e', he', helement⟩ := exists_array_of_slotType h' (hreach'.lt_size h' hm') heq
    obtain ⟨inner', hinner', hinnerEq⟩ := exists_mem_slotType_eq h h' (h.owns_element he)
      (h'.owns_element he') helement hinner
    exact ⟨inner', .element hreach' he' hinner', hinnerEq⟩

/-! ## A mask as a union -/

/-- Adding the masks of entries to a mask adds their slots, and the kind `array` if one of them is
an array. -/
private theorem exists_foldl_slotMask (slots : List Nat) (kinds : KindSet) (start : SlotSet) :
    ∃ kinds' slots', slots.foldl (fun out slot => out ∪ r.slotMask slot) (.of kinds start) =
        .of kinds' slots' ∧
      (∀ k, k ∈ kinds' ↔ k ∈ kinds ∨ ∃ slot ∈ slots, k ∈ (r.slotMask slot).kinds) ∧
      ∀ n, n ∈ slots' ↔ n ∈ start ∨ n ∈ slots := by
  induction slots generalizing kinds start with
  | nil => exact ⟨kinds, start, rfl, by simp, by simp⟩
  | cons slot rest ih =>
    obtain ⟨k, s, hmask⟩ : ∃ k s, r.slotMask slot = .of k s := by
      unfold slotMask
      split <;> exact ⟨_, _, rfl⟩
    have hs : ∀ n, n ∈ s ↔ n = slot := by
      intro n
      rw [← mem_slots_slotMask (r := r), hmask, Mask.slots_of]
    obtain ⟨kinds', slots', heq, hkinds, hslots⟩ := ih (kinds ∪ k) (start ∪ s)
    refine ⟨kinds', slots', ?_, ?_, ?_⟩
    · rw [List.foldl_cons, hmask, Mask.of_union_of, heq]
    · intro l
      rw [hkinds]
      simp [hmask, or_assoc]
    · intro n
      rw [hslots]
      simp [hs, or_assoc]

/-- A mask is the union of its kinds and of the masks of the entries it refers to. -/
theorem Owns.foldl_slotMask {m : Mask} (hm : r.Owns m) :
    m.slots.toList.foldl (fun out slot => out ∪ r.slotMask slot) m.kindPart = m := by
  cases m with
  | any => rfl
  | of kinds slots =>
    obtain ⟨kinds', slots', heq, hkinds, hslots⟩ :=
      exists_foldl_slotMask (r := r) slots.toList kinds ∅
    rw [Mask.slots_of, Mask.kindPart, heq]
    have hk : kinds' = kinds := by
      refine KindSet.ext fun k => (hkinds k).trans ⟨?_, .inl⟩
      rintro (hk | ⟨slot, hslot, hk⟩)
      · exact hk
      · unfold Registry.slotMask at hk
        split at hk
        · next e he =>
          rw [KindSet.mem_single.mp hk]
          exact hm.array_mem slot hslot e he
        · exact absurd hk (KindSet.not_mem_empty k)
    have hs : slots' = slots := by
      refine SlotSet.ext fun n => (hslots n).trans ?_
      simp
    rw [hk, hs]

end Registry

end PhpTypes
