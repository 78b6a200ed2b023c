import PhpTypes.Proofs.Registry.Describe
import PhpTypes.Proofs.Registry.Totality
import PhpTypes.Proofs.Session.Soundness

/-!
# Loops end in reachable contexts

The writer of texts and the mover of masks follow the slots of arrays through the registry, and
neither would end if arrays referred to each other in a circle. In a reachable context they refer to
earlier entries only, so both come to an end on their own (`Context.Reachable.loops_end`), and the
one thing that can go wrong in moving a mask is that the mask belongs to another context
(`Context.Reachable.transfer_error_iff`).
-/

namespace PhpTypes

namespace Context

variable {c source : Context}

/-! ## The loops end -/

/-- **Rendering and moving end.** In a reachable context, the loop that follows a chain of arrays
ends within one round for each slot up to its start, and the recursion through elements is no deeper
than that; every mask has a text. The loops that move a mask to a target end for every target and
give the answer of the move. The arrays they take apart are those that the mask depends on, and each
of them is taken apart once. -/
theorem Reachable.loops_end (h : c.Reachable) :
    (∀ slot < c.registry.size,
      (∃ last layers, ∀ steps, slot < steps →
        c.registry.followArrays? steps slot 0 = some (last, layers)) ∧
      ∃ text, ∀ depth, slot < depth → c.registry.slotText? depth slot = some text) ∧
    (∀ m, c.Holds m → (∀ slot ∈ m.slots, slot < c.registry.size) ∧
      ∃ text, c.registry.describe? m = some text) ∧
    ∀ m : Mask, (∀ slot ∈ m.slots, slot < c.registry.size) → ∀ target : Registry, ∃ s arrays,
      Transfer.Moves c.registry m.slots.toList ⟨target, ∅⟩ arrays s ∧
      target.transfer c.registry m = .ok (Transfer.element s.memo m, s.target) ∧
      arrays.Nodup ∧
      ∀ slot, slot ∈ arrays ↔
        c.registry.Reaches m slot ∧ ∃ e, c.registry.descriptor? slot = some (.arrayOf e) := by
  have hwf := h.sound.wellFormed
  refine ⟨fun slot hlt => ⟨?_, ?_⟩, fun m hm => ⟨?_, ?_⟩, fun m hm target => ?_⟩
  · obtain ⟨last, chain, hfollow⟩ := Registry.exists_followArrays? hwf hlt
    exact ⟨last, 0 + chain, fun steps hsteps => hfollow steps 0 hsteps⟩
  · exact ⟨_, fun depth hdepth => Registry.slotText?_eq_some hwf hlt hdepth⟩
  · exact (h.sound.owns_of_holds hm).slot_lt
  · exact Option.isSome_iff_exists.mp
      (Registry.isSome_describe? hwf (h.sound.owns_of_holds hm))
  · obtain ⟨s, arrays, hmoves, hnodup, hiff⟩ := Registry.exists_moves_of_lt hwf target hm
    exact ⟨s, arrays, hmoves, Registry.transfer_of_moves hmoves, hnodup, hiff⟩

/-- A context with an array whose elements are the arrays `Foo[]` and `Foo[][]`. The latter refers
to the former, so the slot of `Foo[]` gets on the stack twice before it is moved. -/
def mixedArrays : Context :=
  let nested := reading "Foo[][]"
  let element := (TypeExpr.resolveAll none false ["Foo[]", "Foo[][]"] nested.registry).1
  (nested.answer (.resolveAll none false ["Foo[]", "Foo[][]"])).answer (.arrayOf element)

/-- The context has read `Foo[][]`, then the union of both arrays, and has been asked for the arrays
of that union. -/
theorem reachable_mixedArrays : mixedArrays.Reachable := by
  refine Reachable.answer (Reachable.answer (.reading "Foo[][]") ?_) ?_
  · exact fun _ hm => absurd hm List.not_mem_nil
  · intro m hm
    rw [List.mem_singleton.mp hm]
    exact List.mem_cons_self

/-- In this context some mask is written and moved to an end, with no array taken apart twice. -/
theorem loops_end_of_mixedArrays : ∃ m ∈ mixedArrays.masks,
    (∃ text, mixedArrays.registry.describe? m = some text) ∧
    ∃ s arrays, Transfer.Moves mixedArrays.registry m.slots.toList ⟨.empty, ∅⟩ arrays s ∧
      arrays.Nodup := by
  obtain ⟨-, hmasks, hmoves⟩ := Reachable.loops_end reachable_mixedArrays
  refine ⟨_, List.mem_cons_self, ?_⟩
  obtain ⟨hlt, hdescribe⟩ := hmasks _ (.inl List.mem_cons_self)
  obtain ⟨s, arrays, hrun, -, hnodup, -⟩ := hmoves _ hlt .empty
  exact ⟨hdescribe, s, arrays, hrun, hnodup⟩

/-! ## Foreign masks -/

/-- **Moving fails on foreign masks only.** For every target, moving a mask from a reachable context
ends in an error exactly if the mask has a slot that the context never gave out. The error names the
smallest such slot and the number of entries that the context has. -/
theorem Reachable.transfer_error_iff (h : source.Reachable) (target : Registry) (m : Mask) :
    (∀ e, target.transfer source.registry m = .error e ↔
      ∃ slot, IsLeast {n | n ∈ m.slots ∧ source.registry.size ≤ n} slot ∧
        e = .foreignSlot slot source.registry.size ∧
        e.message = "type mask references slot " ++ toString slot ++
          ", but the source context only has " ++ toString source.registry.size ++ " entries") ∧
    ((∃ e, target.transfer source.registry m = .error e) ↔
      ∃ slot ∈ m.slots, source.registry.size ≤ slot) ∧
    (m.slots = ∅ → ∀ other : Registry, target.transfer other m = .ok (m, target)) := by
  have hwf := h.sound.wellFormed
  refine ⟨fun e => ?_, ?_, fun hm other => Registry.transfer_of_slots_eq_empty target other hm⟩
  · rw [Registry.transfer_eq_error_iff hwf]
    refine exists_congr fun slot => and_congr_right fun _ => ⟨?_, And.left⟩
    rintro rfl
    exact ⟨rfl, rfl⟩
  · constructor
    · rintro ⟨e, herror⟩
      obtain ⟨slot, hleast, -⟩ := (Registry.transfer_eq_error_iff hwf target m e).mp herror
      exact ⟨slot, hleast.1⟩
    · rintro ⟨slot, hslot, hle⟩
      have hforeign : ¬ ∀ slot ∈ m.slots, slot < source.registry.size :=
        fun hlt => absurd (hlt slot hslot) (Nat.not_lt.mpr hle)
      obtain ⟨least, hleast⟩ := Registry.exists_isLeast_foreign hforeign
      exact ⟨_, Registry.transfer_of_isLeast hwf target hleast⟩

/-- The context in which nothing but the class `Foo` has been asked for. -/
def oneClass : Context :=
  Context.empty.answer (.nominal "Foo" false)

/-- The class has the only slot. -/
theorem size_oneClass : oneClass.registry.size = 1 := by
  show (Registry.empty.nominalMask (.parse "Foo") false).2.size = 1
  rw [Registry.nominalMask, Registry.classMask, Registry.intern_empty]
  exact Registry.size_push _ _

/-- Of the two foreign slots, the error names the smaller one. -/
theorem transfer_error_of_foreign_slots : oneClass.Reachable ∧ ∃ e,
    Registry.empty.transfer oneClass.registry (.of ∅ (.single 7 ∪ .single 3 ∪ .single 0)) =
        .error e ∧
      e.message = "type mask references slot 3, but the source context only has 1 entries" := by
  have hreach : oneClass.Reachable := Reachable.empty.answer fun _ hm => absurd hm List.not_mem_nil
  obtain ⟨hiff, -, -⟩ := Reachable.transfer_error_iff hreach .empty
    (.of ∅ (.single 7 ∪ .single 3 ∪ .single 0))
  refine ⟨hreach, .foreignSlot 3 1, (hiff _).mpr ⟨3, ⟨⟨by decide, ?_⟩, ?_⟩, ?_, ?_⟩, by decide⟩
  · rw [size_oneClass]
    decide
  · rintro n ⟨hn, hle⟩
    rw [size_oneClass] at hle
    rcases SlotSet.mem_union.mp hn with hn | hn
    · rcases SlotSet.mem_union.mp hn with hn | hn
      · rw [SlotSet.mem_single.mp hn]
        decide
      · exact (SlotSet.mem_single.mp hn).ge
    · rw [SlotSet.mem_single.mp hn] at hle
      exact absurd hle (by decide)
  · rw [size_oneClass]
  · rw [size_oneClass]
    decide

end Context

end PhpTypes
