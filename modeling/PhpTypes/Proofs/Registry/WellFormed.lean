import Std.Data.HashMap.Lemmas
import PhpTypes.Registry.Basic

/-!
# Well-formed registries

A registry is well formed if its index is exactly the inverse of its entries and every array refers
to earlier entries only. `Registry.Owns` says which masks a registry may be asked about: those whose
slots it has given out and that list the kind `array` beside a typed array.

Interning an admissible descriptor keeps a registry well formed and leaves every entry where it
is (`Registry.intern_spec`). Later entries never disturb a mask, so `Owns` survives every extension.
-/

namespace PhpTypes

/-- A kind together with a slot. -/
theorem Mask.ofKind_union_ofSlot (k : Kind) (slot : Nat) :
    ofKind k ∪ ofSlot slot = .of (.single k) (.single slot) := by
  have hkinds : KindSet.single k ∪ ∅ = KindSet.single k := KindSet.ext fun l => by simp
  have hslots : ∅ ∪ SlotSet.single slot = SlotSet.single slot := SlotSet.ext fun n => by simp
  rw [ofKind, ofSlot, of_union_of, hkinds, hslots]

namespace Registry

variable {r r' : Registry}

/-! ## Extension -/

/-- All entries of `old` are entries of `new`, at the same slots. -/
def Extends (old new : Registry) : Prop :=
  old.descriptors.toList <+: new.descriptors.toList

@[simp] theorem Extends.refl (r : Registry) : r.Extends r :=
  List.prefix_rfl

/-- A registry extends whatever an earlier state of it extends. -/
theorem Extends.trans {a b c : Registry} (h : a.Extends b) (h' : b.Extends c) : a.Extends c :=
  List.IsPrefix.trans h h'

/-- An extension has at least as many entries. -/
theorem Extends.size_le (h : r.Extends r') : r.size ≤ r'.size := by
  have hlen := List.IsPrefix.length_le h
  simpa [size] using hlen

/-- The entry at a slot is the entry at that place of the list. -/
theorem descriptor?_eq_toList (r : Registry) (slot : Nat) :
    r.descriptor? slot = r.descriptors.toList[slot]? :=
  Array.getElem?_toList.symm

/-- Only slots below the size have entries. -/
theorem lt_size_of_descriptor? {slot : Nat} {d : Descriptor} (h : r.descriptor? slot = some d) :
    slot < r.size :=
  isSome_descriptor?.mp (by rw [h]; rfl)

/-- From the size on, slots are empty. -/
theorem descriptor?_eq_none {slot : Nat} (hle : r.size ≤ slot) : r.descriptor? slot = none := by
  rw [Option.eq_none_iff_forall_ne_some]
  intro d hd
  exact absurd (lt_size_of_descriptor? hd) (Nat.not_lt.mpr hle)

/-- Every slot below the size has an entry. -/
theorem exists_descriptor?_of_lt {slot : Nat} (h : slot < r.size) :
    ∃ d, r.descriptor? slot = some d :=
  Option.isSome_iff_exists.mp (isSome_descriptor?.mpr h)

/-- The old slots have the same entries in an extension. -/
theorem Extends.descriptor?_eq {slot : Nat} (h : r.Extends r') (hslot : slot < r.size) :
    r'.descriptor? slot = r.descriptor? slot := by
  obtain ⟨rest, hrest⟩ := h
  rw [descriptor?_eq_toList, descriptor?_eq_toList, ← hrest]
  exact List.getElem?_append_left (by simpa [size] using hslot)

/-! ## Masks of a registry -/

/-- A mask that the registry may be asked about: its slots are slots of the registry, and beside a
typed array it lists the kind `array`. -/
structure Owns (r : Registry) (m : Mask) : Prop where
  slot_lt : ∀ slot ∈ m.slots, slot < r.size
  array_mem : ∀ slot ∈ m.slots, ∀ e, r.descriptor? slot = some (.arrayOf e) → Kind.array ∈ m.kinds

/-- The slots of an owned mask are slots of the registry. -/
theorem Owns.lt_of_mem {kinds : KindSet} {slots : SlotSet} (h : r.Owns (.of kinds slots)) :
    ∀ slot ∈ slots, slot < r.size :=
  h.slot_lt

/-- A mask without slots can be asked about in every registry. -/
theorem Owns.of_slots_eq_empty {m : Mask} (h : m.slots = ∅) : r.Owns m where
  slot_lt slot hslot := by
    rw [h] at hslot
    exact absurd hslot (SlotSet.not_mem_empty slot)
  array_mem slot hslot := by
    rw [h] at hslot
    exact absurd hslot (SlotSet.not_mem_empty slot)

theorem Owns.void : r.Owns .void := .of_slots_eq_empty rfl

theorem Owns.any : r.Owns .any := .of_slots_eq_empty rfl

/-- A single kind can be asked about in every registry. -/
theorem Owns.ofKind (k : Kind) : r.Owns (.ofKind k) := .of_slots_eq_empty rfl

/-- The kinds of a mask alone can be asked about in every registry. -/
theorem Owns.kindPart (m : Mask) : r.Owns m.kindPart := .of_slots_eq_empty (Mask.slots_kindPart m)

/-- The union of two masks of a registry is a mask of it. -/
theorem Owns.union {a b : Mask} (ha : r.Owns a) (hb : r.Owns b) : r.Owns (a ∪ b) := by
  cases a with
  | any => exact .any
  | of k s =>
    cases b with
    | any => exact .any
    | of l t =>
      constructor
      · intro slot hslot
        rcases SlotSet.mem_union.mp hslot with hs | ht
        · exact ha.slot_lt slot hs
        · exact hb.slot_lt slot ht
      · intro slot hslot e he
        rcases SlotSet.mem_union.mp hslot with hs | ht
        · exact KindSet.mem_union.mpr (.inl (ha.array_mem slot hs e he))
        · exact KindSet.mem_union.mpr (.inr (hb.array_mem slot ht e he))

/-- A mask stays a mask of the registry when entries are added. -/
theorem Owns.extend {m : Mask} (h : r.Owns m) (hext : r.Extends r') : r'.Owns m where
  slot_lt slot hslot := Nat.lt_of_lt_of_le (h.slot_lt slot hslot) hext.size_le
  array_mem slot hslot e he := by
    rw [hext.descriptor?_eq (h.slot_lt slot hslot)] at he
    exact h.array_mem slot hslot e he

/-- The mask under which an entry is handed out. -/
def slotMask (r : Registry) (slot : Nat) : Mask :=
  match r.descriptor? slot with
  | some (.arrayOf _) => .of (.single .array) (.single slot)
  | _ => .of ∅ (.single slot)

/-- A class is handed out as its slot alone. -/
theorem slotMask_of_class {slot : Nat} {name : String}
    (h : r.descriptor? slot = some (.classNamed name)) :
    r.slotMask slot = .of ∅ (.single slot) := by
  simp only [slotMask, h]

/-- A typed array is handed out with the kind `array` beside its slot. -/
theorem slotMask_of_array {slot : Nat} {e : Mask} (h : r.descriptor? slot = some (.arrayOf e)) :
    r.slotMask slot = .of (.single .array) (.single slot) := by
  simp only [slotMask, h]

/-- The only slot of the mask of an entry is its own. -/
@[simp] theorem mem_slots_slotMask {slot n : Nat} : n ∈ (r.slotMask slot).slots ↔ n = slot := by
  unfold slotMask
  split <;> exact SlotSet.mem_single

/-- The mask of an entry can be asked about. -/
theorem Owns.slotMask {slot : Nat} (h : slot < r.size) : r.Owns (r.slotMask slot) where
  slot_lt n hn := by
    rw [mem_slots_slotMask.mp hn]
    exact h
  array_mem n hn e he := by
    rw [mem_slots_slotMask.mp hn] at he
    rw [slotMask_of_array he]
    exact KindSet.mem_single.mpr rfl

/-! ## The invariant -/

/-- What a registry may be given to intern: a class name without leading backslash, or an array
whose elements are known and denoted by a mask of the registry. -/
def Admits (r : Registry) : Descriptor → Prop
  | .classNamed name => name.toList.head? ≠ some '\\'
  | .arrayOf e => e ≠ .void ∧ e ≠ .any ∧ r.Owns e

/-- The index inverts the entries; entries are admissible and arrays refer to earlier entries. -/
structure WellFormed (r : Registry) : Prop where
  index_eq_some_iff : ∀ key slot,
    r.index[key]? = some slot ↔ ∃ d, r.descriptor? slot = some d ∧ d.key = key
  admits : ∀ slot d, r.descriptor? slot = some d → r.Admits d
  element_lt : ∀ slot e, r.descriptor? slot = some (.arrayOf e) → ∀ inner ∈ e.slots, inner < slot

namespace WellFormed

/-- A registry without entries is well formed. -/
theorem empty : Registry.empty.WellFormed where
  index_eq_some_iff key slot := by
    rw [descriptor?_empty]
    simp [Registry.empty]
  admits slot d h := by simp at h
  element_lt slot e h := by simp at h

/-- A type has one slot only. -/
theorem slot_unique (h : r.WellFormed) {slot slot' : Nat} {d d' : Descriptor}
    (hd : r.descriptor? slot = some d) (hd' : r.descriptor? slot' = some d')
    (hkey : d.key = d'.key) : slot = slot' := by
  have hslot := (h.index_eq_some_iff d.key slot).mpr ⟨d, hd, rfl⟩
  have hslot' := (h.index_eq_some_iff d.key slot').mpr ⟨d', hd', hkey.symm⟩
  exact Option.some.inj (hslot.symm.trans hslot')

/-- The element of an array that the registry holds is a mask of the registry. -/
theorem owns_element (h : r.WellFormed) {slot : Nat} {e : Mask}
    (he : r.descriptor? slot = some (.arrayOf e)) : r.Owns e :=
  (h.admits slot _ he).2.2

end WellFormed

/-! ## Interning -/

/-- The registry with one more entry. -/
def push (r : Registry) (d : Descriptor) : Registry where
  descriptors := r.descriptors.push d
  index := r.index.insert d.key r.size

/-- One more entry stands at the end; the others are where they were. -/
theorem descriptor?_push (r : Registry) (d : Descriptor) (slot : Nat) :
    (r.push d).descriptor? slot = if slot = r.size then some d else r.descriptor? slot := by
  show (r.descriptors.push d)[slot]? = _
  rw [Array.getElem?_push]
  rfl

/-- One more entry makes the registry larger by one. -/
theorem size_push (r : Registry) (d : Descriptor) : (r.push d).size = r.size + 1 := by
  simp [push, size]

/-- One more entry extends the registry. -/
theorem extends_push (r : Registry) (d : Descriptor) : r.Extends (r.push d) := by
  show r.descriptors.toList <+: (r.descriptors.push d).toList
  rw [Array.toList_push]
  exact List.prefix_append _ _

/-- What may be interned in a registry may be interned in every extension. -/
theorem Admits.extend {d : Descriptor} (h : r.Admits d) (hext : r.Extends r') : r'.Admits d := by
  cases d with
  | classNamed name => exact h
  | arrayOf e => exact ⟨h.1, h.2.1, h.2.2.extend hext⟩

/-- A new admissible entry keeps a registry well formed. -/
theorem WellFormed.push (h : r.WellFormed) {d : Descriptor} (hd : r.Admits d)
    (hnew : ∀ slot e, r.descriptor? slot = some e → e.key ≠ d.key) : (r.push d).WellFormed where
  index_eq_some_iff key slot := by
    show (r.index.insert d.key r.size)[key]? = some slot ↔ _
    rw [Std.HashMap.getElem?_insert, descriptor?_push]
    -- The new key leads to the new slot, every other key where it led before.
    by_cases hkey : d.key = key
    · rw [if_pos (by simpa using hkey)]
      by_cases hslot : slot = r.size
      · simp [hslot, hkey]
      · rw [if_neg hslot]
        constructor
        · intro heq
          exact absurd (Option.some.inj heq).symm hslot
        · rintro ⟨e, he, hekey⟩
          exact absurd (hekey.trans hkey.symm) (hnew slot e he)
    · rw [if_neg (by simpa using hkey), h.index_eq_some_iff]
      by_cases hslot : slot = r.size
      · simp [descriptor?_eq_none (Nat.le_refl r.size), hslot, hkey]
      · rw [if_neg hslot]
  admits slot e he := by
    rw [descriptor?_push] at he
    split at he
    · obtain rfl := Option.some.inj he
      exact hd.extend (extends_push r d)
    · exact (h.admits slot e he).extend (extends_push r d)
  element_lt slot e he := by
    rw [descriptor?_push] at he
    split at he
    · next hslot =>
      obtain rfl := Option.some.inj he
      rw [hslot]
      exact hd.2.2.slot_lt
    · exact h.element_lt slot e he

/-- A type that the registry holds keeps its slot. -/
theorem intern_of_held (h : r.WellFormed) {slot : Nat} {d e : Descriptor}
    (he : r.descriptor? slot = some e) (hkey : e.key = d.key) : r.intern d = (slot, r) := by
  have hindex := (h.index_eq_some_iff d.key slot).mpr ⟨e, he, hkey⟩
  unfold intern
  rw [hindex]

/-- A type that the registry does not hold is added at the end. -/
theorem intern_of_new (h : r.WellFormed) {d : Descriptor}
    (hnew : ∀ slot e, r.descriptor? slot = some e → e.key ≠ d.key) :
    r.intern d = (r.size, r.push d) := by
  have hindex : r.index[d.key]? = none := by
    rw [Option.eq_none_iff_forall_ne_some]
    intro slot hslot
    obtain ⟨e, he, hkey⟩ := (h.index_eq_some_iff d.key slot).mp hslot
    exact hnew slot e he hkey
  unfold intern
  rw [hindex]
  rfl

/-- The first entry gets the first slot. -/
theorem intern_empty (d : Descriptor) : empty.intern d = (0, empty.push d) := by
  refine intern_of_new .empty fun slot e he => ?_
  rw [descriptor?_empty] at he
  cases he

/-- Interning gives a slot of the same type, keeps all entries, and adds no other entry. -/
theorem intern_spec (h : r.WellFormed) {d : Descriptor} (hd : r.Admits d) :
    (r.intern d).2.WellFormed ∧ r.Extends (r.intern d).2 ∧
      (∃ e, (r.intern d).2.descriptor? (r.intern d).1 = some e ∧ e.key = d.key) ∧
      ∀ slot, r.size ≤ slot → slot < (r.intern d).2.size → slot = (r.intern d).1 := by
  by_cases hheld : ∃ slot e, r.descriptor? slot = some e ∧ e.key = d.key
  · obtain ⟨slot, e, he, hkey⟩ := hheld
    rw [intern_of_held h he hkey]
    exact ⟨h, .refl r, ⟨e, he, hkey⟩, fun n hle hlt => absurd hlt (Nat.not_lt.mpr hle)⟩
  · have hnew : ∀ slot e, r.descriptor? slot = some e → e.key ≠ d.key :=
      fun slot e he hkey => hheld ⟨slot, e, he, hkey⟩
    rw [intern_of_new h hnew]
    refine ⟨h.push hd hnew, extends_push r d, ⟨d, ?_, rfl⟩, ?_⟩
    · rw [descriptor?_push, if_pos rfl]
    · intro slot hle hlt
      rw [size_push] at hlt
      show slot = r.size
      omega

end Registry

end PhpTypes
