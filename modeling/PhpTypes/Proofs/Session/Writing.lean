import PhpTypes.Proofs.Registry.PlainText
import PhpTypes.Proofs.Session.Soundness

/-!
# Texts of slots in reachable contexts

The writer follows a chain of single arrays in a loop and appends the brackets of the chain at the
end. In a reachable context this gives every slot the text of the plain recursion, in which each
array adds one pair of brackets to its element (`Context.Reachable.describeSlot_eq_plainText`).
-/

namespace PhpTypes

open Registry (plainText plainParts addBrackets)

namespace Context

variable {c : Context}

/-- **The loop of the writer gives the text of the recursion.** In a reachable context every slot has
a text, that of the recursion. The loop over the arrays in front ends at a slot of which the text,
with the brackets of the chain behind it, is the text of the slot where it began. The members of
every mask are listed with the texts of the recursion as well. -/
theorem Reachable.describeSlot_eq_plainText (h : c.Reachable) :
    (∀ slot,
      c.registry.slotText? (c.registry.size + 1) slot = some (plainText h.sound.wellFormed slot) ∧
      c.registry.describeSlot slot = .ofList (plainText h.sound.wellFormed slot) ∧
      ∃ last layers, c.registry.followArrays? (c.registry.size + 1) slot 0 = some (last, layers) ∧
        plainText h.sound.wellFormed slot =
          addBrackets (plainText h.sound.wellFormed last) layers) ∧
    ∀ m, c.registry.partsWith (c.registry.slotText? (c.registry.size + 1)) m =
      some (plainParts h.sound.wellFormed m) := by
  have hwf := h.sound.wellFormed
  refine ⟨fun slot => ⟨Registry.slotText?_eq_plainText hwf slot, ?_, ?_⟩,
    Registry.partsWith_eq_plainParts hwf⟩
  · rw [Registry.describeSlot, Registry.slotText?_eq_plainText hwf slot]
    rfl
  · obtain ⟨last, layers, hfollow⟩ := Registry.exists_followArrays?_eq_some hwf slot
    refine ⟨last, layers, hfollow, ?_⟩
    rw [Registry.addBrackets_of_followArrays? hwf hfollow, Registry.addBrackets_zero]

/-! ## A union of chains inside a chain -/

/-- A reachable context stays reachable when it is asked for the arrays of a new element. -/
theorem Reachable.push_array {r : Registry} {masks : List Mask} {e : Mask}
    (h : Reachable ⟨r, masks⟩) (he : e ∈ masks) (hvoid : e ≠ .void) (hany : e ≠ .any)
    (hnew : .arrayOf e ∉ r.descriptors.toList) :
    Reachable ⟨r.push (.arrayOf e), .of (.single .array) (.single r.size) :: masks⟩ := by
  have hadmits : r.Admits (.arrayOf e) := ⟨hvoid, hany, h.sound.owns e he⟩
  have hanswer := h.answer (q := .arrayOf e) fun m hm => by rwa [List.mem_singleton.mp hm]
  rwa [Context.answer, Request.run, Registry.arrayOf_of_new h.sound.wellFormed hadmits hnew]
    at hanswer

/-- The context in which a class that may be `null` has been asked for. -/
theorem reachable_nullableClass :
    Reachable ⟨Registry.empty.push (.classNamed "Foo"), [.of (.single .null) (.single 0)]⟩ := by
  have hanswer := Reachable.empty.answer (q := .nominal "Foo" true)
    fun m hm => absurd hm List.not_mem_nil
  have hname : String.ofList (Text.dropLead ['\\'] (QualifiedName.parse "Foo").toText.toList) =
      "Foo" := by decide
  have hmask : Mask.ofSlot 0 ∪ .ofKind .null = .of (.single .null) (.single 0) := by decide
  simpa [Context.answer, Context.obtain, Context.empty, Request.run, Registry.nominalMask,
    Registry.classMask, hname, Registry.intern_empty, hmask] using hanswer

/-- A registry with the class `Foo`, arrays of one and of two layers over it, the arrays of their
union, and one more layer over these. -/
def chainsInChain : Registry :=
  ((((Registry.empty.push (.classNamed "Foo")).push
    (.arrayOf (.of (.single .null) (.single 0)))).push
    (.arrayOf (.of (.single .array) (.single 1)))).push
    (.arrayOf (.of (.single .array) (.single 2) ∪ .of (.single .array) (.single 1)))).push
    (.arrayOf (.of (.single .array) (.single 3)))

/-- The registry is that of a reachable context. -/
theorem exists_reachable_chainsInChain : ∃ masks, Reachable ⟨chainsInChain, masks⟩ := by
  have hone := reachable_nullableClass.push_array List.mem_cons_self (by decide) (by decide)
    (by decide)
  have htwo := hone.push_array List.mem_cons_self (by decide) (by decide) (by decide)
  have hunion := htwo.answer
    (q := .union (.of (.single .array) (.single 2)) (.of (.single .array) (.single 1))) (by decide)
  have harrays := hunion.push_array List.mem_cons_self (by decide) (by decide) (by decide)
  exact ⟨_, harrays.push_array List.mem_cons_self (by decide) (by decide) (by decide)⟩

/-- Two chains of different length in a union, with a chain around it. -/
theorem describeSlot_eq_plainText_of_chainsInChain :
    ∃ masks, ∃ h : Reachable ⟨chainsInChain, masks⟩,
      chainsInChain.followArrays? 6 4 0 = some (3, 1) ∧
      plainText h.sound.wellFormed 4 =
        "((\\Foo|null)[]|(\\Foo|null)[][])[][]".toList := by
  obtain ⟨masks, h⟩ := exists_reachable_chainsInChain
  obtain ⟨hslots, -⟩ := Reachable.describeSlot_eq_plainText h
  obtain ⟨htext, -⟩ := hslots 4
  have hwritten : chainsInChain.slotText? 6 4 =
      some "((\\Foo|null)[]|(\\Foo|null)[][])[][]".toList := by decide
  exact ⟨masks, h, by decide, Option.some.inj (htext.symm.trans hwritten)⟩

end Context

end PhpTypes
