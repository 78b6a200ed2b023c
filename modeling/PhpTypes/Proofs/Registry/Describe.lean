import Mathlib.Data.Nat.Init
import Mathlib.Tactic.ByContra
import PhpTypes.Registry.Describe
import PhpTypes.Proofs.Registry.WellFormed

/-!
# Texts of masks

In a well-formed registry every slot and every mask has a text. `Registry.slotChars` gives the text
of a slot and `Registry.parts` the texts of the members of a mask. They satisfy the recursion that
one expects, an array being written as its element followed by brackets
(`Registry.slotChars_of_array`), although the writer follows chains of arrays in a loop.

Entries that are added later change no text (`Registry.describe?_extend`), and the list of all texts
only gets longer (`Registry.snapshot_extend`).
-/

namespace PhpTypes

namespace Registry

variable {r r' : Registry}

/-! ## Chains of arrays -/

/-- A chain goes on behind an element that is a single array with nothing but the kind `array`
beside it. -/
theorem soleArray?_eq_some {m : Mask} {inner : Nat} (h : r.soleArray? m = some inner) :
    (∀ k ∈ m.kinds, k = .array) ∧ m.slots.toList = [inner] ∧
      ∃ e, r.descriptor? inner = some (.arrayOf e) := by
  unfold soleArray? at h
  split at h
  · cases h
  · next kinds slots =>
    split at h
    · cases h
    · next hkinds =>
      split at h
      · next slot hslots =>
        split at h
        · next harray =>
          obtain rfl := Option.some.inj h
          refine ⟨?_, hslots, ?_⟩
          · intro k hk
            by_contra hne
            refine hkinds (List.any_eq_true.mpr ⟨k, KindSet.mem_toList.mpr hk, ?_⟩)
            simpa using hne
          · cases hd : r.descriptor? slot with
            | none => simp [hd] at harray
            | some d =>
              cases d with
              | classNamed name => simp [hd, Descriptor.isArray] at harray
              | arrayOf e => exact ⟨e, rfl⟩
        · cases h
      · cases h

/-- The array at which a chain goes on is a slot of the element. -/
theorem mem_of_soleArray? {m : Mask} {inner : Nat} (h : r.soleArray? m = some inner) :
    inner ∈ m.slots := by
  obtain ⟨-, hslots, -⟩ := soleArray?_eq_some h
  exact SlotSet.mem_toList.mp (hslots ▸ List.mem_singleton_self inner)

/-- One step goes on to a single array and counts one more layer. -/
theorem followArrays?_succ_of_sole {slot inner : Nat} {e : Mask}
    (hd : r.descriptor? slot = some (.arrayOf e)) (hsole : r.soleArray? e = some inner)
    (steps layers : Nat) :
    r.followArrays? (steps + 1) slot layers = r.followArrays? steps inner (layers + 1) := by
  simp only [followArrays?, hd, hsole]

/-- A chain ends at an array whose element is anything else. -/
theorem followArrays?_succ_of_not_sole {slot : Nat} {e : Mask}
    (hd : r.descriptor? slot = some (.arrayOf e)) (hsole : r.soleArray? e = none)
    (steps layers : Nat) : r.followArrays? (steps + 1) slot layers = some (slot, layers) := by
  simp only [followArrays?, hd, hsole]

/-- A chain ends at a class. -/
theorem followArrays?_succ_of_class {slot : Nat} {name : String}
    (hd : r.descriptor? slot = some (.classNamed name)) (steps layers : Nat) :
    r.followArrays? (steps + 1) slot layers = some (slot, layers) := by
  simp only [followArrays?, hd]

/-- A chain ends after fewer steps than there are slots below it, whatever the number of layers
counted before. The induction is on the slot, as elements come before their array. -/
theorem exists_followArrays? (h : r.WellFormed) {slot : Nat} (hlt : slot < r.size) :
    ∃ last chain, ∀ steps layers, slot < steps →
      r.followArrays? steps slot layers = some (last, layers + chain) := by
  induction slot using Nat.strong_induction_on with
  | _ slot ih =>
    obtain ⟨d, hd⟩ := exists_descriptor?_of_lt hlt
    -- A round is always left, since the steps exceed the slot.
    have hpos {steps : Nat} (hsteps : slot < steps) : ∃ rest, steps = rest + 1 ∧ slot ≤ rest :=
      ⟨steps - 1, by omega, by omega⟩
    cases d with
    | classNamed name =>
      refine ⟨slot, 0, fun steps layers hsteps => ?_⟩
      obtain ⟨rest, rfl, -⟩ := hpos hsteps
      exact followArrays?_succ_of_class hd rest layers
    | arrayOf e =>
      cases hsole : r.soleArray? e with
      | none =>
        refine ⟨slot, 0, fun steps layers hsteps => ?_⟩
        obtain ⟨rest, rfl, -⟩ := hpos hsteps
        exact followArrays?_succ_of_not_sole hd hsole rest layers
      | some inner =>
        have hbelow := h.element_lt slot e hd inner (mem_of_soleArray? hsole)
        obtain ⟨last, chain, hfollow⟩ := ih inner hbelow (Nat.lt_trans hbelow hlt)
        refine ⟨last, chain + 1, fun steps layers hsteps => ?_⟩
        obtain ⟨rest, rfl, hrest⟩ := hpos hsteps
        rw [followArrays?_succ_of_sole hd hsole, hfollow rest _ (Nat.lt_of_lt_of_le hbelow hrest)]
        simp only [Nat.add_assoc, Nat.add_comm 1]

/-- Another layer puts another pair of brackets at the end. -/
theorem addBrackets_succ (text : List Char) (layers : Nat) :
    addBrackets text (layers + 1) = addBrackets text layers ++ ['[', ']'] := by
  rw [addBrackets, addBrackets, List.replicate_succ', List.flatten_append, List.append_assoc]
  rfl

/-! ## The steps of the writer -/

/-- A class is written as its name with a leading backslash. -/
theorem slotText?_of_class {slot : Nat} {name : String}
    (hd : r.descriptor? slot = some (.classNamed name)) (depth : Nat) :
    r.slotText? (depth + 1) slot = some ('\\' :: name.toList) := by
  simp [slotText?, followArrays?_succ_of_class hd, hd, addBrackets]

/-- At the end of a chain the members of the element are written, and brackets behind them. -/
theorem slotText?_of_not_sole {slot : Nat} {e : Mask}
    (hd : r.descriptor? slot = some (.arrayOf e)) (hsole : r.soleArray? e = none) (depth : Nat) :
    r.slotText? (depth + 1) slot =
      (r.partsWith (r.slotText? depth) e).map fun parts => elementText parts ++ ['[', ']'] := by
  simp only [slotText?, followArrays?_succ_of_not_sole hd hsole, hd, Option.bind_eq_bind,
    Option.bind_some]
  cases r.partsWith (r.slotText? depth) e with
  | none => rfl
  | some parts => rfl

/-- In front of a single array, one more pair of brackets is written. -/
theorem slotText?_of_sole (h : r.WellFormed) {slot inner : Nat} {e : Mask}
    (hd : r.descriptor? slot = some (.arrayOf e)) (hsole : r.soleArray? e = some inner)
    (depth : Nat) :
    r.slotText? (depth + 1) slot =
      (r.slotText? (depth + 1) inner).map fun text => text ++ ['[', ']'] := by
  have hlt := lt_size_of_descriptor? hd
  have hbelow := h.element_lt slot e hd inner (mem_of_soleArray? hsole)
  obtain ⟨last, chain, hfollow⟩ := exists_followArrays? h (Nat.lt_trans hbelow hlt)
  have hslot : r.followArrays? (r.size + 1) slot 0 = some (last, chain + 1) := by
    rw [followArrays?_succ_of_sole hd hsole, hfollow _ _ (Nat.lt_trans hbelow hlt)]
    simp only [Nat.zero_add, Nat.add_comm 1]
  have hinner : r.followArrays? (r.size + 1) inner 0 = some (last, chain) := by
    rw [hfollow _ _ (by omega), Nat.zero_add]
  simp only [slotText?, hslot, hinner, Option.bind_eq_bind, Option.bind_some]
  -- Both walks end at the same slot, and only their brackets are counted differently.
  split
  · simp [addBrackets_succ]
  · next e' _ =>
    cases r.partsWith (fun slot => r.slotText? depth slot) e' with
    | none => rfl
    | some parts => simp [addBrackets_succ]
  · simp [addBrackets_succ]

/-! ## Texts of slots and members -/

/-- The text of a slot. -/
def slotChars (r : Registry) (slot : Nat) : List Char :=
  (r.slotText? (r.size + 1) slot).getD []

/-- The texts of the members of a mask, `null` last. -/
def parts (r : Registry) (m : Mask) : List (List Char) :=
  r.kindWords m ++ m.slots.toList.map r.slotChars ++
    if m.contains .null then ["null".toList] else []

/-- What works for every member of a list works for the list. -/
theorem mapM_eq_some_map {α β : Type} {f : α → Option β} {g : α → β} {l : List α}
    (h : ∀ a ∈ l, f a = some (g a)) : l.mapM f = some (l.map g) := by
  induction l with
  | nil => rfl
  | cons a l ih =>
    rw [List.mapM_cons, h a List.mem_cons_self, ih fun b hb => h b (List.mem_cons_of_mem a hb)]
    rfl

/-- If a writer gives every slot its text, it gives the mask its parts. -/
theorem partsWith_eq {text : Nat → Option (List Char)} {m : Mask}
    (h : ∀ slot ∈ m.slots, text slot = some (r.slotChars slot)) :
    r.partsWith text m = some (r.parts m) := by
  rw [partsWith, mapM_eq_some_map h]
  rfl

/-- A mask with a single array refers to a typed array. -/
theorem hasTypedArray_of_soleArray? {m : Mask} {inner : Nat}
    (h : r.soleArray? m = some inner) : r.hasTypedArray m = true := by
  obtain ⟨-, hslots, e, he⟩ := soleArray?_eq_some h
  simp [hasTypedArray, hslots, he, Descriptor.isArray]

/-- The only member of a mask with a single array is that array. -/
theorem parts_of_soleArray? {m : Mask} {inner : Nat} (h : r.soleArray? m = some inner) :
    r.parts m = [r.slotChars inner] := by
  obtain ⟨hkinds, hslots, e, he⟩ := soleArray?_eq_some h
  have hwords : r.kindWords m = [] := by
    rw [kindWords, hasTypedArray_of_soleArray? h]
    refine List.map_eq_nil_iff.mpr (List.filter_eq_nil_iff.mpr fun k hk => ?_)
    rw [hkinds k (KindSet.mem_toList.mp hk)]
    decide
  have hnull : m.contains .null = false := by
    cases m with
    | any => cases hslots
    | of kinds slots =>
      rw [Bool.eq_false_iff]
      intro hcontains
      exact absurd (hkinds .null hcontains) (by decide)
  rw [parts, hwords, hslots, hnull]
  rfl

/-- A single member needs no parentheses. -/
theorem elementText_singleton (text : List Char) : elementText [text] = text := by
  simp [elementText]

/-- Once the elements have texts, the array has one. -/
theorem slotText?_of_array (h : r.WellFormed) {slot : Nat} {e : Mask}
    (hd : r.descriptor? slot = some (.arrayOf e))
    (hinner : ∀ inner ∈ e.slots, ∀ depth, inner < depth →
      r.slotText? depth inner = some (r.slotChars inner))
    {depth : Nat} (hdepth : slot ≤ depth) :
    r.slotText? (depth + 1) slot = some (elementText (r.parts e) ++ ['[', ']']) := by
  have hbelow := h.element_lt slot e hd
  cases hsole : r.soleArray? e with
  | none =>
    have hparts : r.partsWith (r.slotText? depth) e = some (r.parts e) := by
      refine partsWith_eq fun inner hmem => hinner inner hmem depth ?_
      exact Nat.lt_of_lt_of_le (hbelow inner hmem) hdepth
    rw [slotText?_of_not_sole hd hsole, hparts, Option.map_some]
  | some inner =>
    have hmem := mem_of_soleArray? hsole
    have htext : r.slotText? (depth + 1) inner = some (r.slotChars inner) :=
      hinner inner hmem (depth + 1) (Nat.lt_of_lt_of_le (hbelow inner hmem) (by omega))
    rw [slotText?_of_sole h hd hsole, htext, Option.map_some, parts_of_soleArray? hsole,
      elementText_singleton]

/-- The text of a class is its name with a leading backslash. -/
theorem slotChars_of_class {slot : Nat} {name : String}
    (hd : r.descriptor? slot = some (.classNamed name)) :
    r.slotChars slot = '\\' :: name.toList := by
  rw [slotChars, slotText?_of_class hd, Option.getD_some]

/-- Every entry has a text, and every bound above its slot is enough to write it. -/
theorem slotText?_eq_some (h : r.WellFormed) {slot : Nat} (hlt : slot < r.size) {depth : Nat}
    (hdepth : slot < depth) : r.slotText? depth slot = some (r.slotChars slot) := by
  induction slot using Nat.strong_induction_on generalizing depth with
  | _ slot ih =>
    obtain ⟨rest, rfl⟩ := Nat.exists_eq_add_of_lt hdepth
    obtain ⟨d, hd⟩ := exists_descriptor?_of_lt hlt
    cases d with
    | classNamed name => rw [slotText?_of_class hd, slotChars_of_class hd]
    | arrayOf e =>
      have hinner : ∀ inner ∈ e.slots, ∀ depth, inner < depth →
          r.slotText? depth inner = some (r.slotChars inner) := by
        intro inner hmem depth hdepth
        have hbelow := h.element_lt slot e hd inner hmem
        exact ih inner hbelow (Nat.lt_trans hbelow hlt) hdepth
      have htext := slotText?_of_array h hd hinner (Nat.le_of_lt hlt)
      rw [slotText?_of_array h hd hinner (Nat.le_add_right slot rest), slotChars, htext,
        Option.getD_some]

/-- An array is written as its element followed by brackets. -/
theorem slotChars_of_array (h : r.WellFormed) {slot : Nat} {e : Mask}
    (hd : r.descriptor? slot = some (.arrayOf e)) :
    r.slotChars slot = elementText (r.parts e) ++ ['[', ']'] := by
  have hlt := lt_size_of_descriptor? hd
  rw [slotChars, slotText?_of_array h hd ?_ (Nat.le_of_lt hlt), Option.getD_some]
  intro inner hmem depth hdepth
  exact slotText?_eq_some h (Nat.lt_trans (h.element_lt slot e hd inner hmem) hlt) hdepth

/-- Every mask of the registry has a text. -/
theorem describe?_eq (h : r.WellFormed) {m : Mask} (hm : r.Owns m) :
    r.describe? m =
      if m.isAny then some "mixed"
      else if m.isVoid then some "void"
      else some (String.ofList (Text.join '|' (r.parts m))) := by
  have hparts : r.partsWith (r.slotText? (r.size + 1)) m = some (r.parts m) := by
    refine partsWith_eq fun slot hslot => ?_
    have hlt := hm.slot_lt slot hslot
    exact slotText?_eq_some h hlt (Nat.lt_succ_of_lt hlt)
  rw [describe?, hparts]
  split
  · rfl
  · split <;> rfl

/-- Writing a mask of the registry never fails. -/
theorem isSome_describe? (h : r.WellFormed) {m : Mask} (hm : r.Owns m) :
    (r.describe? m).isSome = true := by
  rw [describe?_eq h hm]
  split
  · rfl
  · split <;> rfl

/-! ## Later entries -/

/-- Whether a mask refers to a typed array does not change when entries are added. -/
theorem Extends.hasTypedArray_eq (hext : r.Extends r') {m : Mask} (hm : r.Owns m) :
    r'.hasTypedArray m = r.hasTypedArray m := by
  rw [hasTypedArray, hasTypedArray, Bool.eq_iff_iff, List.any_eq_true, List.any_eq_true]
  refine exists_congr fun slot => and_congr_right fun hslot => ?_
  rw [hext.descriptor?_eq (hm.slot_lt slot hslot)]

/-- The parts of a mask depend on the texts of its slots alone. -/
theorem parts_congr (hext : r.Extends r') {m : Mask} (hm : r.Owns m)
    (hslots : ∀ slot ∈ m.slots, r'.slotChars slot = r.slotChars slot) :
    r'.parts m = r.parts m := by
  rw [parts, parts, kindWords, kindWords, hext.hasTypedArray_eq hm, List.map_congr_left hslots]

/-- Entries that are added later do not change the text of a slot. -/
theorem slotChars_extend (h : r.WellFormed) (h' : r'.WellFormed) (hext : r.Extends r')
    {slot : Nat} (hlt : slot < r.size) : r'.slotChars slot = r.slotChars slot := by
  induction slot using Nat.strong_induction_on with
  | _ slot ih =>
    obtain ⟨d, hd⟩ := exists_descriptor?_of_lt hlt
    have hd' : r'.descriptor? slot = some d := by rw [hext.descriptor?_eq hlt, hd]
    cases d with
    | classNamed name => rw [slotChars_of_class hd, slotChars_of_class hd']
    | arrayOf e =>
      have hparts : r'.parts e = r.parts e := by
        refine parts_congr hext (h.owns_element hd) fun inner hinner => ?_
        have hbelow := h.element_lt slot e hd inner hinner
        exact ih inner hbelow (Nat.lt_trans hbelow hlt)
      rw [slotChars_of_array h hd, slotChars_of_array h' hd', hparts]

/-- **Entries that are added later do not change the text of a mask.** -/
theorem describe?_extend (h : r.WellFormed) (h' : r'.WellFormed) (hext : r.Extends r') {m : Mask}
    (hm : r.Owns m) : r'.describe? m = r.describe? m := by
  have hparts : r'.parts m = r.parts m :=
    parts_congr hext hm fun slot hslot => slotChars_extend h h' hext (hm.slot_lt slot hslot)
  rw [describe?_eq h hm, describe?_eq h' (hm.extend hext), hparts]

/-- The text of a mask is the same in every extension of its registry. -/
theorem describe_extend (h : r.WellFormed) (h' : r'.WellFormed) (hext : r.Extends r') {m : Mask}
    (hm : r.Owns m) : r'.describe m = r.describe m := by
  rw [describe, describe, describe?_extend h h' hext hm]

/-- The text of a slot is written whenever the registry has that slot. -/
theorem describeSlot_eq (h : r.WellFormed) {slot : Nat} (hlt : slot < r.size) :
    r.describeSlot slot = String.ofList (r.slotChars slot) := by
  rw [describeSlot, slotText?_eq_some h hlt (Nat.lt_succ_of_lt hlt)]
  rfl

/-- The texts of all entries stay where they are when entries are added. -/
theorem snapshot_extend (h : r.WellFormed) (h' : r'.WellFormed) (hext : r.Extends r') :
    r.snapshot <+: r'.snapshot := by
  obtain ⟨added, hadded⟩ := Nat.exists_eq_add_of_le hext.size_le
  have hsame : (List.range r.size).map (fun slot => (slot, r'.describeSlot slot)) = r.snapshot := by
    refine List.map_congr_left fun slot hslot => ?_
    have hlt := List.mem_range.mp hslot
    have hlt' := Nat.lt_of_lt_of_le hlt hext.size_le
    rw [describeSlot_eq h hlt, describeSlot_eq h' hlt', slotChars_extend h h' hext hlt]
  have hall : r'.snapshot = r.snapshot ++
      ((List.range added).map (r.size + ·)).map fun slot => (slot, r'.describeSlot slot) := by
    rw [← hsame, ← List.map_append, ← List.range_add, ← hadded, snapshot]
  rw [hall]
  exact List.prefix_append _ _

end Registry

end PhpTypes
