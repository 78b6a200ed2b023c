import Mathlib.Order.Bounds.Defs
import PhpTypes.Proofs.Registry.Run

/-!
# When moving a mask succeeds

Moving a mask from a well-formed source ends for every mask, whatever its slots and whatever the
target. If all slots are slots of the source, it succeeds, and the arrays that are taken apart on
the way are those that the mask depends on, each once (`Registry.exists_moves_of_lt`). If not, it
fails at the smallest slot that the source lacks (`Registry.transfer_eq_error_iff`): the slots of a
mask come in ascending order, and the entries below them never lead to a slot that is missing.
-/

namespace PhpTypes

namespace Transfer

variable {source target : Registry} {root : Mask} {s : State}

/-! ## What has a memo -/

/-- The memo holds slots of the source that the root depends on, and with the slot of an array those
of its elements. -/
structure Closed (source : Registry) (root : Mask) (s : State) : Prop where
  lt_size : ∀ n ∈ s.memo, n < source.size
  reaches : ∀ n ∈ s.memo, source.Reaches root n
  elements : ∀ n ∈ s.memo, ∀ e, source.descriptor? n = some (.arrayOf e) →
    ∀ inner ∈ e.slots, inner ∈ s.memo

/-- In the beginning nothing has a memo. -/
theorem Closed.initial (source target : Registry) (root : Mask) :
    Closed source root ⟨target, ∅⟩ where
  lt_size _ hn := absurd hn Std.HashMap.not_mem_empty
  reaches _ hn := absurd hn Std.HashMap.not_mem_empty
  elements _ hn := absurd hn Std.HashMap.not_mem_empty

/-- Recording an entry whose elements have memos keeps the memo closed. -/
theorem Closed.record (hs : Closed source root s) {slot : Nat} {d : Descriptor}
    (hreach : source.Reaches root slot) (hd : source.descriptor? slot = some d)
    (helements : ∀ inner ∈ d.slots, inner ∈ s.memo) (add : Registry → Mask × Registry) :
    Closed source root (s.record slot add) where
  lt_size n hn := by
    rcases mem_record.mp hn with rfl | hold
    · exact Registry.lt_size_of_descriptor? hd
    · exact hs.lt_size n hold
  reaches n hn := by
    rcases mem_record.mp hn with rfl | hold
    · exact hreach
    · exact hs.reaches n hold
  elements n hn e he inner hinner := by
    refine mem_record.mpr (.inr ?_)
    rcases mem_record.mp hn with rfl | hold
    · obtain rfl := Option.some.inj (hd.symm.trans he)
      exact helements inner hinner
    · exact hs.elements n hold e he inner hinner

/-- Recording single entries keeps the memo closed. -/
theorem Kept.closed (source : Registry) (root : Mask) : Kept source root (Closed source root) where
  ofClass hs hreach hd _ :=
    hs.record hreach hd (fun inner hinner => absurd hinner (SlotSet.not_mem_empty inner)) _
  ofArray hs hreach hd _ helements := hs.record hreach hd helements _

/-- When the slots of the root have been moved, the memo holds just the slots that it depends on. -/
theorem Closed.mem_iff (hs : Closed source root s) (hroot : ∀ slot ∈ root.slots, slot ∈ s.memo)
    {n : Nat} : n ∈ s.memo ↔ source.Reaches root n := by
  constructor
  · exact hs.reaches n
  · intro hreach
    induction hreach with
    | mask hslot => exact hroot _ hslot
    | element _ he hinner ih => exact hs.elements _ ih _ he _ hinner

/-! ## Foreign slots -/

/-- A slot that the source lacks cannot be moved. -/
theorem moveSlot_foreign {slot : Nat} (hle : source.size ≤ slot) (hnew : slot ∉ s.memo) :
    moveSlot source s slot = .error (.foreignSlot slot source.size) := by
  have hpos : 1 ≤ stepBound source := Nat.le_trans (Nat.le_add_right 1 _)
    (pending_le_stepBound source s.memo)
  obtain ⟨left, hleft⟩ := Nat.exists_eq_add_of_le' hpos
  rw [moveSlot, hleft, run, step_visit_foreign hle hnew]
  rfl

end Transfer

namespace Registry

variable {target source : Registry} {m : Mask}

/-- A mask of slots of the source can be moved. The loops end, and they take apart the arrays that
the mask depends on, each once. -/
theorem exists_moves_of_lt (hsource : source.WellFormed) (target : Registry)
    (hm : ∀ slot ∈ m.slots, slot < source.size) :
    ∃ s arrays, Transfer.Moves source m.slots.toList ⟨target, ∅⟩ arrays s ∧ arrays.Nodup ∧
      ∀ slot, slot ∈ arrays ↔
        source.Reaches m slot ∧ ∃ e, source.descriptor? slot = some (.arrayOf e) := by
  obtain ⟨s, arrays, hmoves, hclosed, hopens, hmoved⟩ := Transfer.exists_moves hsource
    (.closed source m) m.slots.toList hm (fun slot hslot => .mask hslot) (.initial source target m)
  refine ⟨s, arrays, hmoves, hopens.nodup, fun slot => ?_⟩
  have hnew : slot ∉ (∅ : Std.HashMap Nat Mask) := Std.HashMap.not_mem_empty
  rw [hopens.mem_iff, and_iff_right hnew, hclosed.mem_iff hmoved]

/-- Moving a mask fails at the smallest slot that the source lacks. -/
theorem transfer_of_isLeast (hsource : source.WellFormed) (target : Registry) {slot : Nat}
    (hleast : IsLeast {n | n ∈ m.slots ∧ source.size ≤ n} slot) :
    target.transfer source m = .error (.foreignSlot slot source.size) := by
  obtain ⟨⟨hslot, hle⟩, hsmallest⟩ := hleast
  obtain ⟨before, rest, hslots⟩ := List.append_of_mem (SlotSet.mem_toList.mpr hslot)
  have hascending := m.slots.ascending
  rw [hslots, List.pairwise_append] at hascending
  have hmem : ∀ n ∈ before, n ∈ m.slots := fun n hn =>
    SlotSet.mem_toList.mp (hslots ▸ List.mem_append_left _ hn)
  have hbefore : ∀ n ∈ before, n < source.size := by
    intro n hn
    by_contra hforeign
    have hbelow : n < slot := hascending.2.2 n hn slot List.mem_cons_self
    have habove : slot ≤ n := hsmallest ⟨hmem n hn, Nat.not_lt.mp hforeign⟩
    omega
  obtain ⟨s, arrays, hmoves, hclosed, -⟩ := Transfer.exists_moves hsource (.closed source m) before
    hbefore (fun n hn => .mask (hmem n hn)) (.initial source target m)
  have hnew : slot ∉ s.memo := fun hold => absurd (hclosed.lt_size slot hold) (Nat.not_lt.mpr hle)
  have hfail := Transfer.moveSlot_foreign hle hnew
  rw [transfer, hslots, List.foldlM_append, hmoves.foldlM_eq]
  simp only [List.foldlM_cons, hfail, bind, Except.bind]

/-- Among the slots of a mask that the source lacks there is a smallest one. -/
theorem exists_isLeast_foreign (hforeign : ¬ ∀ slot ∈ m.slots, slot < source.size) :
    ∃ slot, IsLeast {n | n ∈ m.slots ∧ source.size ≤ n} slot := by
  have hsome : ∃ n, n ∈ m.slots ∧ source.size ≤ n := by
    by_contra hnone
    refine hforeign fun slot hslot => ?_
    by_contra hlt
    exact hnone ⟨slot, hslot, Nat.not_lt.mp hlt⟩
  exact ⟨Nat.find hsome, Nat.find_spec hsome, fun n hn => Nat.find_min' hsome hn⟩

/-- Moving a mask fails exactly if it has a slot that the source lacks; the error names the smallest
such slot. -/
theorem transfer_eq_error_iff (hsource : source.WellFormed) (target : Registry) (m : Mask)
    (e : TransferError) :
    target.transfer source m = .error e ↔
      ∃ slot, IsLeast {n | n ∈ m.slots ∧ source.size ≤ n} slot ∧
        e = .foreignSlot slot source.size := by
  constructor
  · intro herror
    by_cases hm : ∀ slot ∈ m.slots, slot < source.size
    · obtain ⟨s, arrays, hmoves, -⟩ := exists_moves_of_lt hsource target hm
      cases (transfer_of_moves hmoves).symm.trans herror
    · obtain ⟨slot, hleast⟩ := exists_isLeast_foreign hm
      have hfail := transfer_of_isLeast hsource target hleast
      exact ⟨slot, hleast, Except.error.inj (herror.symm.trans hfail)⟩
  · rintro ⟨slot, hleast, rfl⟩
    exact transfer_of_isLeast hsource target hleast

/-- A mask without slots stays as it is, and so does the target. -/
theorem transfer_of_slots_eq_empty (target source : Registry) (hm : m.slots = ∅) :
    target.transfer source m = .ok (m, target) := by
  have hkinds : m.kindPart = m := by
    cases m with
    | any => rfl
    | of kinds slots =>
      obtain rfl : slots = ∅ := hm
      rfl
  have hmoves : Transfer.Moves source m.slots.toList ⟨target, ∅⟩ [] ⟨target, ∅⟩ := by
    rw [hm]
    exact .nil _
  rw [transfer_of_moves hmoves, Transfer.element, hm, hkinds]
  rfl

end Registry

end PhpTypes
