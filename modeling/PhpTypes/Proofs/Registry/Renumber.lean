import Mathlib.Data.Set.Function
import PhpTypes.Proofs.Registry.Growth

/-!
# Registries that differ in their numbers

Two well-formed registries that hold the same types are the same up to the numbers of their slots
and the spelling of their classes: there is a renumbering that takes the entries of one to the
entries of the other, and every mask to the mask of the same type (`Registry.exists_renumbers`).
-/

namespace PhpTypes

/-- The mask `m'` is `m` with its slots renumbered. -/
structure Mask.Renumbered (f : Nat → Nat) (m m' : Mask) : Prop where
  isAny_eq : m'.isAny = m.isAny
  kinds_eq : m'.kinds = m.kinds
  mem_slots_iff : ∀ n, n ∈ m'.slots ↔ ∃ slot ∈ m.slots, f slot = n

/-- The same class, up to letter case, or arrays of renumbered elements. -/
def Descriptor.Renumbered (f : Nat → Nat) : Descriptor → Descriptor → Prop
  | classNamed name, classNamed name' => name'.foldCase = name.foldCase
  | arrayOf e, arrayOf e' => e.Renumbered f e'
  | classNamed _, arrayOf _ => False
  | arrayOf _, classNamed _ => False

namespace Registry

variable {r r' : Registry} {f : Nat → Nat}

/-- A renumbering of the slots of `r` takes its entries to the entries of `r'`. -/
structure Renumbers (f : Nat → Nat) (r r' : Registry) : Prop where
  bijOn : Set.BijOn f {slot | slot < r.size} {slot | slot < r'.size}
  descriptor : ∀ slot d, r.descriptor? slot = some d →
    ∃ d', r'.descriptor? (f slot) = some d' ∧ d.Renumbered f d'

/-- Every slot is taken to a slot of the same type. -/
def KeepsTypes (f : Nat → Nat) (r r' : Registry) : Prop :=
  ∀ slot < r.size, f slot < r'.size ∧ r'.slotType (f slot) = r.slotType slot

theorem exists_keepsTypes (hsame : ∀ t, r.HasEntry t → r'.HasEntry t) :
    ∃ f, KeepsTypes f r r' := by
  have hslot : ∀ slot, ∃ slot', slot < r.size →
      slot' < r'.size ∧ r'.slotType slot' = r.slotType slot := by
    intro slot
    by_cases hlt : slot < r.size
    · obtain ⟨slot', hlt', htype⟩ := hsame _ ⟨slot, hlt, rfl⟩
      exact ⟨slot', fun _ => ⟨hlt', htype⟩⟩
    · exact ⟨0, fun h => absurd h hlt⟩
  choose f hf using hslot
  exact ⟨f, hf⟩

/-- Masks of the same type are the same up to the renumbering. -/
theorem KeepsTypes.renumbered (hf : KeepsTypes f r r') (h : r.WellFormed) (h' : r'.WellFormed)
    {m m' : Mask} (hm : r.Owns m) (hm' : r'.Owns m') (htype : r'.typeOf m' = r.typeOf m) :
    m.Renumbered f m' := by
  -- A slot on either side has one of the same type on the other, and a type has one slot only.
  have hslots : ∀ n, n ∈ m'.slots ↔ ∃ slot ∈ m.slots, f slot = n := by
    intro n
    constructor
    · intro hn
      obtain ⟨slot, hslot, heq⟩ := exists_mem_slotType_eq h' h hm' hm htype.symm hn
      obtain ⟨hlt, hkeep⟩ := hf slot (hm.slot_lt slot hslot)
      exact ⟨slot, hslot, slotType_injOn h' hlt (hm'.slot_lt n hn) (hkeep.trans heq)⟩
    · rintro ⟨slot, hslot, rfl⟩
      obtain ⟨hlt, hkeep⟩ := hf slot (hm.slot_lt slot hslot)
      obtain ⟨slot', hslot', heq⟩ := exists_mem_slotType_eq h h' hm hm' htype hslot
      have hsame : slot' = f slot :=
        slotType_injOn h' (hm'.slot_lt slot' hslot') hlt (heq.trans hkeep.symm)
      exact hsame ▸ hslot'
  cases m with
  | any =>
    obtain rfl := (typeOf_eq_any_iff h' hm').mp (htype.trans (typeOf_any r))
    exact ⟨rfl, rfl, hslots⟩
  | of kinds slots =>
    cases m' with
    | any =>
      rw [typeOf_any, typeOf_of h hm.lt_of_mem] at htype
      exact absurd htype (PhpType.any_ne_of _ _ _)
    | of kinds' slots' =>
      rw [typeOf_of h hm.lt_of_mem, typeOf_of h' hm'.lt_of_mem] at htype
      exact ⟨rfl, (PhpType.of_inj.mp htype).1, hslots⟩

/-- Entries of the same type are the same up to the renumbering. -/
theorem KeepsTypes.descriptor (hf : KeepsTypes f r r') (h : r.WellFormed) (h' : r'.WellFormed)
    {slot : Nat} {d : Descriptor} (hd : r.descriptor? slot = some d) :
    ∃ d', r'.descriptor? (f slot) = some d' ∧ d.Renumbered f d' := by
  obtain ⟨hlt, htype⟩ := hf slot (lt_size_of_descriptor? hd)
  rw [slotType_eq h hd] at htype
  cases d with
  | classNamed name =>
    obtain ⟨name', hd', hfold⟩ := exists_class_of_slotType h' hlt htype
    exact ⟨.classNamed name', hd', hfold⟩
  | arrayOf e =>
    obtain ⟨e', hd', helement⟩ := exists_array_of_slotType h' hlt htype
    exact ⟨.arrayOf e', hd',
      hf.renumbered h h' (h.owns_element hd) (h'.owns_element hd') helement⟩

/-- **Registries that hold the same types differ in their numbers only**, and in the spelling of
their classes. -/
theorem exists_renumbers (h : r.WellFormed) (h' : r'.WellFormed)
    (hsame : ∀ t, r.HasEntry t ↔ r'.HasEntry t) :
    ∃ f, Renumbers f r r' ∧ ∀ m m', r.Owns m → r'.Owns m' → r'.typeOf m' = r.typeOf m →
      m.Renumbered f m' := by
  obtain ⟨f, hf⟩ := exists_keepsTypes fun t ht => (hsame t).mp ht
  refine ⟨f, ⟨⟨?_, ?_, ?_⟩, fun slot d hd => hf.descriptor h h' hd⟩,
    fun m m' hm hm' htype => hf.renumbered h h' hm hm' htype⟩
  · intro slot hlt
    exact (hf slot hlt).1
  · intro a ha b hb heq
    have htypes : r.slotType a = r.slotType b := by
      rw [← (hf a ha).2, ← (hf b hb).2, heq]
    exact slotType_injOn h ha hb htypes
  · intro n hn
    obtain ⟨slot, hlt, htype⟩ := (hsame (r'.slotType n)).mpr ⟨n, hn, rfl⟩
    obtain ⟨hlt', hkeep⟩ := hf slot hlt
    exact ⟨slot, hlt, slotType_injOn h' hlt' hn (hkeep.trans htype)⟩

end Registry

end PhpTypes
