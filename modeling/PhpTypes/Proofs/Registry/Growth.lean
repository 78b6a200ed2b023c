import PhpTypes.Proofs.Registry.Transfer

/-!
# Registries grow by interning only

Moving a mask changes the target in one way: descriptors are interned, one after the other
(`Registry.Grows`). A registry that gained no entry on the way is therefore the registry it was
before, with the same entries and the same index.

A mask whose types the target holds already leaves the target alone (`Registry.transfer_of_held`).
In particular, to move a mask from an earlier state of a registry into a later one gives back the
mask (`Registry.transfer_of_extends`).
-/

namespace PhpTypes

namespace Registry

/-- `new` comes from `old` by interning descriptors, one after the other. -/
inductive Grows (old : Registry) : Registry → Prop
  | refl : Grows old old
  | intern {r : Registry} (h : Grows old r) (d : Descriptor) : Grows old (r.intern d).2

variable {r r' : Registry}

/-- A registry that grows in two goes grows. -/
theorem Grows.trans {a b c : Registry} (h : a.Grows b) (h' : b.Grows c) : a.Grows c := by
  induction h' with
  | refl => exact h
  | intern _ d ih => exact ih.intern d

/-- Interning adds one entry or changes nothing. -/
theorem intern_eq_self_or_size (r : Registry) (d : Descriptor) :
    (r.intern d).2 = r ∨ (r.intern d).2.size = r.size + 1 := by
  unfold intern
  split
  · exact .inl rfl
  · exact .inr (by simp [size])

/-- A registry grows by at least one entry or does not change. -/
theorem Grows.eq_or_size_lt (h : r.Grows r') : r' = r ∨ r.size < r'.size := by
  induction h with
  | refl => exact .inl rfl
  | @intern s _ d ih =>
    rcases intern_eq_self_or_size s d with heq | hsize
    · rw [heq]
      exact ih
    · rcases ih with rfl | hlt
      · exact .inr (by omega)
      · exact .inr (by omega)

/-- Asking for a class interns at most one descriptor. -/
theorem classMask_grows (r : Registry) (name : String) : r.Grows (r.classMask name).2 :=
  .intern .refl _

/-- Asking for an array interns at most one descriptor. -/
theorem arrayOf_grows (r : Registry) (element : Mask) : r.Grows (r.arrayOf element).2 := by
  unfold arrayOf
  split
  · exact .refl
  · exact .intern .refl _

end Registry

namespace Transfer

/-- Recording an entry interns at most one descriptor. -/
theorem Kept.grows (source old : Registry) (root : Mask) :
    Kept source root fun s => old.Grows s.target where
  ofClass h _ _ _ := h.trans (Registry.classMask_grows _ _)
  ofArray h _ _ _ _ := h.trans (Registry.arrayOf_grows _ _)

end Transfer

namespace Registry

variable {r r' target source : Registry} {m : Mask}

/-- Moving a mask interns descriptors and does nothing else to the target. -/
theorem transfer_grows (hsource : source.WellFormed) (hm : ∀ slot ∈ m.slots, slot < source.size)
    {answer : Mask × Registry} (h : target.transfer source m = .ok answer) :
    target.Grows answer.2 := by
  obtain ⟨s, arrays, hmoves, hgrows, -⟩ := Transfer.exists_moves (s := ⟨target, ∅⟩) hsource
    (.grows source target m) m.slots.toList hm (fun slot hslot => .mask hslot) .refl
  obtain rfl := Except.ok.inj ((transfer_of_moves hmoves).symm.trans h)
  exact hgrows

/-- To move a mask into a registry that holds all types it depends on changes nothing there. -/
theorem transfer_of_held (htarget : target.WellFormed) (hsource : source.WellFormed)
    (hm : source.Owns m) (hheld : ∀ t, source.DependsOn m t → target.HasEntry t) :
    ∃ m', target.transfer source m = .ok (m', target) ∧
      target.Yields (source.typeOf m) (m', target) := by
  obtain ⟨⟨m', r⟩, hmove, hyields, hadded⟩ := transfer_spec htarget hsource hm
  obtain rfl : r = target := by
    rcases (transfer_grows hsource hm.slot_lt hmove).eq_or_size_lt with heq | hlt
    · exact heq
    · -- The first new entry would be one of a type that the target lacks.
      have hnew := exists_new_slot_iff htarget hsource hm hyields hadded (r.slotType target.size)
      obtain ⟨hdepends, hlacks⟩ := hnew.mp ⟨target.size, Nat.le_refl _, hlt, rfl⟩
      exact absurd (hheld _ hdepends) hlacks
  exact ⟨m', hmove, hyields⟩

/-- A type that a registry holds is held by its extensions. -/
theorem HasEntry.extend (h : r.WellFormed) (hext : r.Extends r') {t : PhpType}
    (ht : r.HasEntry t) : r'.HasEntry t := by
  obtain ⟨slot, hlt, rfl⟩ := ht
  exact ⟨slot, Nat.lt_of_lt_of_le hlt hext.size_le, slotType_extend h hext hlt⟩

/-- A registry holds all types that its masks depend on. -/
theorem DependsOn.hasEntry (h : r.WellFormed) (hm : r.Owns m) {t : PhpType}
    (ht : r.DependsOn m t) : r.HasEntry t := by
  obtain ⟨slot, hreach, rfl⟩ := ht
  exact ⟨slot, hreach.lt_size h hm, rfl⟩

/-- **A mask that is moved from an earlier state of a registry into a later one stays as it is**,
and so does the registry. -/
theorem transfer_of_extends (htarget : target.WellFormed) (hsource : source.WellFormed)
    (hext : source.Extends target) (hm : source.Owns m) :
    target.transfer source m = .ok (m, target) := by
  obtain ⟨m', hmove, hyields⟩ :=
    transfer_of_held htarget hsource hm fun _ ht => (ht.hasEntry hsource hm).extend hsource hext
  have htype : target.typeOf m = source.typeOf m := typeOf_extend hsource hext hm
  have hsame : m' = m :=
    typeOf_injOn htarget hyields.owns (hm.extend hext) (hyields.typeOf_eq.trans htype.symm)
  rw [hmove, hsame]

/-! ## Types that a target receives -/

/-- The registry `new` holds all types of `old` and the given types, and no others. -/
structure Receives (old : Registry) (types : PhpType → Prop) (new : Registry) : Prop where
  wellFormed : new.WellFormed
  grows : old.Extends new
  hasEntry_iff : ∀ t, new.HasEntry t ↔ old.HasEntry t ∨ types t

/-- Without anything to receive, a registry stays as it is. -/
theorem Receives.refl (h : r.WellFormed) : r.Receives (fun _ => False) r where
  wellFormed := h
  grows := .refl r
  hasEntry_iff t := by rw [or_false]

/-- What a registry receives in two goes. -/
theorem Receives.trans {a b c : Registry} {types types' : PhpType → Prop}
    (h : a.Receives types b) (h' : b.Receives types' c) :
    a.Receives (fun t => types t ∨ types' t) c where
  wellFormed := h'.wellFormed
  grows := h.grows.trans h'.grows
  hasEntry_iff t := by rw [h'.hasEntry_iff, h.hasEntry_iff, or_assoc]

/-- What is received may be described in another way. -/
theorem Receives.congr {types types' : PhpType → Prop} (h : r.Receives types r')
    (hiff : ∀ t, types t ↔ types' t) : r.Receives types' r' where
  wellFormed := h.wellFormed
  grows := h.grows
  hasEntry_iff t := by rw [h.hasEntry_iff, hiff]

/-- With a mask, a target receives the types that the mask depends on. -/
theorem exists_transfer_receives (htarget : target.WellFormed) (hsource : source.WellFormed)
    (hm : source.Owns m) :
    ∃ m' r', target.transfer source m = .ok (m', r') ∧
      target.Receives (source.DependsOn m) r' ∧ r'.Owns m' ∧ r'.typeOf m' = source.typeOf m := by
  obtain ⟨⟨m', r'⟩, hmove, hyields, hadded⟩ := transfer_spec htarget hsource hm
  refine ⟨m', r', hmove, ⟨hyields.wellFormed, hyields.grows, fun t => ?_⟩, hyields.owns,
    hyields.typeOf_eq⟩
  have hnew := exists_new_slot_iff htarget hsource hm hyields hadded t
  constructor
  · rintro ⟨slot, hlt, rfl⟩
    by_cases hold : slot < target.size
    · exact .inl ⟨slot, hold, (slotType_extend htarget hyields.grows hold).symm⟩
    · exact .inr (hnew.mp ⟨slot, Nat.not_lt.mp hold, hlt, rfl⟩).1
  · rintro (hold | hdepends)
    · exact hold.extend htarget hyields.grows
    · by_cases hold : target.HasEntry t
      · exact hold.extend htarget hyields.grows
      · obtain ⟨slot, -, hlt, htype⟩ := hnew.mpr ⟨hdepends, hold⟩
        exact ⟨slot, hlt, htype⟩

end Registry

end PhpTypes
