import PhpTypes.Proofs.Registry.Run
import PhpTypes.Proofs.Registry.Yield

/-!
# Moving masks keeps their types

A mask of a well-formed registry can always be moved, and the mask it is moved to has the same type
(`Registry.transfer_spec`). What the target gains are entries of types that the mask depends on.

`Transfer.Sound` is the invariant of the state: the memo holds masks of the right types, and nothing
else was added. Recording an entry keeps it (`Transfer.Kept.sound`), so every run does.
-/

namespace PhpTypes

namespace Transfer

variable {source old : Registry} {root : Mask} {s s' : State}

/-! ## The invariant -/

/-- The target extends the one at the start by entries of types that the root depends on, and the
memo maps slots to masks of the type of their entry. -/
structure Sound (source old : Registry) (root : Mask) (s : State) : Prop where
  wellFormed : s.target.WellFormed
  grows : old.Extends s.target
  memo : ∀ slot m, s.memo[slot]? = some m →
    s.target.Owns m ∧ s.target.typeOf m = source.slotType slot
  added : ∀ slot, old.size ≤ slot → slot < s.target.size →
    ∃ origin, source.Reaches root origin ∧ s.target.slotType slot = source.slotType origin

theorem Sound.initial (hold : old.WellFormed) : Sound source old root ⟨old, ∅⟩ where
  wellFormed := hold
  grows := .refl old
  memo slot m h := by
    rw [Std.HashMap.getElem?_empty] at h
    cases h
  added slot hle hlt := absurd hlt (Nat.not_lt.mpr hle)

/-- To record a mask of the type of an entry keeps the invariant. -/
theorem Sound.record (hs : Sound source old root s) {slot : Nat}
    (hreach : source.Reaches root slot) {add : Registry → Mask × Registry}
    (hyields : s.target.Yields (source.slotType slot) (add s.target))
    (honly : s.target.AddsOnly (add s.target).2 (source.slotType slot)) :
    Sound source old root (s.record slot add) where
  wellFormed := hyields.wellFormed
  grows := hs.grows.trans hyields.grows
  memo n m h := by
    rw [record_memo, Std.HashMap.getElem?_insert] at h
    rw [record_target]
    split at h
    · next heq =>
      rw [← beq_iff_eq.mp heq, ← Option.some.inj h]
      exact ⟨hyields.owns, hyields.typeOf_eq⟩
    · obtain ⟨howns, htype⟩ := hs.memo n m h
      refine ⟨howns.extend hyields.grows, ?_⟩
      rw [Registry.typeOf_extend hs.wellFormed hyields.grows howns, htype]
  added n hle hlt := by
    rw [record_target] at hlt ⊢
    by_cases hold : n < s.target.size
    · obtain ⟨origin, horigin, htype⟩ := hs.added n hle hold
      refine ⟨origin, horigin, ?_⟩
      rw [Registry.slotType_extend hs.wellFormed hyields.grows hold, htype]
    · exact ⟨slot, hreach, honly n (Nat.not_lt.mp hold) hlt⟩

/-! ## Masks in terms of the target -/

/-- Adding the masks of the memo one after the other follows adding the entries of the source. -/
private theorem foldl_memo_spec (hsource : source.WellFormed) (hs : Sound source old root s)
    (slots : List Nat) (hlt : ∀ slot ∈ slots, slot < source.size)
    (hmem : ∀ slot ∈ slots, slot ∈ s.memo) (out out' : Mask) (hout : s.target.Owns out)
    (hout' : source.Owns out') (htype : s.target.typeOf out = source.typeOf out') :
    let moved := slots.foldl (fun out slot => (s.memo[slot]?).elim out (out ∪ ·)) out
    s.target.Owns moved ∧ s.target.typeOf moved =
      source.typeOf (slots.foldl (fun out slot => out ∪ source.slotMask slot) out') := by
  induction slots generalizing out out' with
  | nil => exact ⟨hout, htype⟩
  | cons slot rest ih =>
    obtain ⟨m, hm⟩ := Option.isSome_iff_exists.mp
      (Std.HashMap.mem_iff_isSome_getElem?.mp (hmem slot List.mem_cons_self))
    obtain ⟨howns, hmtype⟩ := hs.memo slot m hm
    have hslot := Registry.Owns.slotMask (hlt slot List.mem_cons_self)
    simp only [List.foldl_cons, hm, Option.elim_some]
    refine ih (fun n hn => hlt n (List.mem_cons_of_mem _ hn))
      (fun n hn => hmem n (List.mem_cons_of_mem _ hn)) _ _ (hout.union howns)
      (hout'.union hslot) ?_
    rw [Registry.typeOf_union hs.wellFormed hout howns, Registry.typeOf_union hsource hout' hslot,
      htype, hmtype]
    rfl

/-- A mask whose slots are all in the memo has the same type in terms of the target. -/
theorem element_spec (hsource : source.WellFormed) (hs : Sound source old root s) {m : Mask}
    (hm : source.Owns m) (hmem : ∀ slot ∈ m.slots, slot ∈ s.memo) :
    s.target.Owns (element s.memo m) ∧ s.target.typeOf (element s.memo m) = source.typeOf m := by
  have hkinds : s.target.typeOf m.kindPart = source.typeOf m.kindPart := by
    cases m with
    | any => rw [Mask.kindPart, Registry.typeOf_any, Registry.typeOf_any]
    | of kinds slots =>
      rw [Mask.kindPart, Registry.typeOf_of_slots_eq_empty hs.wellFormed,
        Registry.typeOf_of_slots_eq_empty hsource]
  have hfold := foldl_memo_spec hsource hs m.slots.toList hm.slot_lt hmem m.kindPart m.kindPart
    (.kindPart m) (.kindPart m) hkinds
  rwa [hm.foldl_slotMask] at hfold

/-- Once the elements of an array have been moved, interning them gives the type of the array. -/
theorem arrayOf_element_yields (hsource : source.WellFormed) (hs : Sound source old root s)
    {slot : Nat} {e : Mask} (hd : source.descriptor? slot = some (.arrayOf e))
    (hmem : ∀ inner ∈ e.slots, inner ∈ s.memo) :
    s.target.Yields (source.slotType slot) (s.target.arrayOf (element s.memo e)) ∧
      s.target.AddsOnly (s.target.arrayOf (element s.memo e)).2 (source.slotType slot) := by
  obtain ⟨hvoid, hany, hownsE⟩ := hsource.admits slot _ hd
  have hknown : ¬ (source.typeOf e = .void ∨ source.typeOf e = .any) := by
    rw [Registry.typeOf_eq_void_iff hsource hownsE, Registry.typeOf_eq_any_iff hsource hownsE]
    exact not_or.mpr ⟨hvoid, hany⟩
  have htype : source.slotType slot = .arrayOf (source.typeOf e) := by
    rw [PhpType.arrayOf, if_neg hknown]
    exact Registry.slotType_eq hsource hd
  obtain ⟨howns, htypeOf⟩ := element_spec hsource hs hownsE hmem
  rw [htype, ← htypeOf]
  exact Registry.arrayOf_yields hs.wellFormed howns

/-- Recording entries keeps the invariant. -/
theorem Kept.sound (hsource : source.WellFormed) :
    Kept source root (Sound source old root) where
  ofClass {s slot name} hs hreach hd _ := by
    have hadd := Registry.classMask_yields hs.wellFormed (hsource.admits slot _ hd)
    have htype : source.slotType slot = .of ∅ {name.foldCase} ∅ := Registry.slotType_eq hsource hd
    rw [← htype] at hadd
    exact hs.record hreach hadd.1 hadd.2
  ofArray hs hreach hd _ helements := by
    have hadd := arrayOf_element_yields hsource hs hd helements
    exact hs.record hreach hadd.1 hadd.2

end Transfer

namespace Registry

/-- **Moving a mask keeps its type.** The answer is a mask of the same type in an extension of the
target, and every entry added has the type of an entry of the source that the mask depends on. -/
theorem transfer_spec {target source : Registry} (htarget : target.WellFormed)
    (hsource : source.WellFormed) {m : Mask} (hm : source.Owns m) :
    ∃ answer, target.transfer source m = .ok answer ∧ target.Yields (source.typeOf m) answer ∧
      ∀ slot, target.size ≤ slot → slot < answer.2.size →
        ∃ origin, source.Reaches m origin ∧ answer.2.slotType slot = source.slotType origin := by
  have hinitial : Transfer.Sound source target m ⟨target, ∅⟩ := .initial htarget
  obtain ⟨s, arrays, hmoves, hs, -, hmoved⟩ := Transfer.exists_moves hsource (.sound hsource)
    m.slots.toList hm.slot_lt (fun slot hslot => .mask hslot) hinitial
  obtain ⟨howns, htype⟩ := Transfer.element_spec hsource hs hm hmoved
  exact ⟨_, transfer_of_moves hmoves, ⟨hs.wellFormed, hs.grows, howns, htype⟩, hs.added⟩

/-- Some entry is of the given type. -/
def HasEntry (r : Registry) (t : PhpType) : Prop :=
  ∃ slot, slot < r.size ∧ r.slotType slot = t

/-- Some entry that the mask reaches is of the given type. -/
def DependsOn (r : Registry) (m : Mask) (t : PhpType) : Prop :=
  ∃ slot, r.Reaches m slot ∧ r.slotType slot = t

/-- The entries that moving a mask adds are those of the types that the mask depends on and the
target lacks. -/
theorem exists_new_slot_iff {target source : Registry} (htarget : target.WellFormed)
    (hsource : source.WellFormed) {m : Mask} (hm : source.Owns m) {answer : Mask × Registry}
    (hyields : target.Yields (source.typeOf m) answer)
    (hadded : ∀ slot, target.size ≤ slot → slot < answer.2.size →
      ∃ origin, source.Reaches m origin ∧ answer.2.slotType slot = source.slotType origin)
    (t : PhpType) :
    (∃ slot, target.size ≤ slot ∧ slot < answer.2.size ∧ answer.2.slotType slot = t) ↔
      source.DependsOn m t ∧ ¬ target.HasEntry t := by
  constructor
  · rintro ⟨slot, hle, hlt, rfl⟩
    obtain ⟨origin, hreach, heq⟩ := hadded slot hle hlt
    refine ⟨⟨origin, hreach, heq.symm⟩, ?_⟩
    rintro ⟨old, hold, hsame⟩
    have hkept := slotType_extend htarget hyields.grows hold
    have hold' : old < answer.2.size := Nat.lt_of_lt_of_le hold hyields.grows.size_le
    have hslots : old = slot := slotType_injOn hyields.wellFormed hold' hlt (hkept.trans hsame)
    omega
  · rintro ⟨⟨origin, hreach, rfl⟩, hlacks⟩
    obtain ⟨slot, hslot, heq⟩ := hreach.exists_slotType_eq hsource hyields.wellFormed hm
      hyields.owns hyields.typeOf_eq
    refine ⟨slot, ?_, hslot.lt_size hyields.wellFormed hyields.owns, heq⟩
    by_contra hnew
    have hold : slot < target.size := by omega
    exact hlacks ⟨slot, hold, (slotType_extend htarget hyields.grows hold).symm.trans heq⟩

end Registry

end PhpTypes
