import PhpTypes.Proofs.Registry.Describe

/-!
# Texts by plain recursion

`Registry.plainText` is the text of a slot as one would define it: an array is its element followed
by one pair of brackets, whatever the element is. Elements come before their array in a well-formed
registry, so the recursion goes down.

The writer goes another way. It follows a chain of single arrays in a loop and adds the brackets of
the whole chain at the end. No round of the loop changes the text that is written in the end
(`Registry.addBrackets_of_followArrays?`), and every slot gets the text of the recursion
(`Registry.slotText?_eq_plainText`).
-/

namespace PhpTypes

namespace Registry

variable {r : Registry}

/-! ## The recursion -/

/-- The text of a slot by recursion. A class is written as its name behind a backslash, and an array
as its element followed by brackets. The element is the list of its members with `|` between them,
in parentheses if there are several. -/
def plainText (h : r.WellFormed) (slot : Nat) : List Char :=
  match hd : r.descriptor? slot with
  | some (.classNamed name) => '\\' :: name.toList
  | some (.arrayOf e) =>
    let slotTexts := e.slots.toList.attach.map fun ⟨inner, _⟩ => plainText h inner
    let members := r.kindWords e ++ slotTexts ++ if e.contains .null then ["null".toList] else []
    let element := Text.join '|' members
    (if members.length > 1 then '(' :: element ++ [')'] else element) ++ ['[', ']']
  | none => '#' :: (toString slot).toList
termination_by slot
decreasing_by exact h.element_lt slot e hd inner ‹_›

/-- The texts of the members of a mask, those of its slots by recursion. -/
def plainParts (h : r.WellFormed) (m : Mask) : List (List Char) :=
  r.kindWords m ++ m.slots.toList.map (plainText h) ++
    if m.contains .null then ["null".toList] else []

/-- The operand of brackets lists the members, in parentheses if there are several. -/
theorem elementText_eq (members : List (List Char)) :
    elementText members =
      if members.length > 1 then '(' :: Text.join '|' members ++ [')']
      else Text.join '|' members := by
  rw [elementText]
  split
  · rfl
  · next hshort =>
    rcases members with _ | ⟨text, _ | ⟨second, rest⟩⟩
    · rfl
    · rfl
    · simp at hshort

/-- The recursion satisfies its equation: what is written at a slot depends on the descriptor there.
-/
theorem plainText_eq (h : r.WellFormed) (slot : Nat) :
    plainText h slot =
      match r.descriptor? slot with
      | some (.classNamed name) => '\\' :: name.toList
      | some (.arrayOf e) => elementText (plainParts h e) ++ ['[', ']']
      | none => '#' :: (toString slot).toList := by
  rw [plainText]
  split
  · next name hd => rw [hd]
  · next e hd =>
    have hslots : (e.slots.toList.attach.map fun ⟨inner, _⟩ => plainText h inner) =
        e.slots.toList.map (plainText h) := List.attach_map_val
    rw [hd]
    show _ = elementText (plainParts h e) ++ ['[', ']']
    rw [elementText_eq, plainParts, ← hslots]
  · next hd => rw [hd]

/-- A class is its name behind a backslash. -/
theorem plainText_of_class (h : r.WellFormed) {slot : Nat} {name : String}
    (hd : r.descriptor? slot = some (.classNamed name)) :
    plainText h slot = '\\' :: name.toList := by
  rw [plainText_eq, hd]

/-- An array is its element followed by one pair of brackets. -/
theorem plainText_of_array (h : r.WellFormed) {slot : Nat} {e : Mask}
    (hd : r.descriptor? slot = some (.arrayOf e)) :
    plainText h slot = elementText (plainParts h e) ++ ['[', ']'] := by
  rw [plainText_eq, hd]

/-- A slot that the registry lacks is written as its number. -/
theorem plainText_of_none (h : r.WellFormed) {slot : Nat} (hd : r.descriptor? slot = none) :
    plainText h slot = '#' :: (toString slot).toList := by
  rw [plainText_eq, hd]

/-! ## The writer -/

/-- The recursion gives a mask its parts if it gives every slot its text. -/
theorem plainParts_congr (h : r.WellFormed) {m : Mask}
    (hslots : ∀ slot ∈ m.slots, plainText h slot = r.slotChars slot) :
    plainParts h m = r.parts m := by
  rw [plainParts, parts, List.map_congr_left hslots]

/-- The writer and the recursion give an entry the same text. The induction is on the slot, as the
entries of an element come before the array. -/
theorem plainText_eq_slotChars (h : r.WellFormed) {slot : Nat} (hlt : slot < r.size) :
    plainText h slot = r.slotChars slot := by
  induction slot using Nat.strong_induction_on with
  | _ slot ih =>
    obtain ⟨d, hd⟩ := exists_descriptor?_of_lt hlt
    cases d with
    | classNamed name => rw [plainText_of_class h hd, slotChars_of_class hd]
    | arrayOf e =>
      have hparts : plainParts h e = r.parts e := by
        refine plainParts_congr h fun inner hinner => ?_
        have hbelow := h.element_lt slot e hd inner hinner
        exact ih inner hbelow (Nat.lt_trans hbelow hlt)
      rw [plainText_of_array h hd, slotChars_of_array h hd, hparts]

/-- The recursion gives the members of a mask the texts that the writer gives them. -/
theorem plainParts_eq_parts (h : r.WellFormed) {m : Mask}
    (hm : ∀ slot ∈ m.slots, slot < r.size) : plainParts h m = r.parts m :=
  plainParts_congr h fun slot hslot => plainText_eq_slotChars h (hm slot hslot)

/-- The writer gives a slot that the registry lacks its number. -/
theorem slotText?_of_none {slot : Nat} (hd : r.descriptor? slot = none) (depth : Nat) :
    r.slotText? (depth + 1) slot = some ('#' :: (toString slot).toList) := by
  simp [slotText?, followArrays?, hd, addBrackets]

/-- **The writer gives every slot the text of the recursion**, those that the registry lacks
included. -/
theorem slotText?_eq_plainText (h : r.WellFormed) (slot : Nat) :
    r.slotText? (r.size + 1) slot = some (plainText h slot) := by
  by_cases hlt : slot < r.size
  · rw [plainText_eq_slotChars h hlt, slotText?_eq_some h hlt (Nat.lt_succ_of_lt hlt)]
  · have hd := descriptor?_eq_none (Nat.not_lt.mp hlt)
    rw [plainText_of_none h hd, slotText?_of_none hd]

/-- The members of a mask get the texts of the recursion. -/
theorem partsWith_eq_plainParts (h : r.WellFormed) (m : Mask) :
    r.partsWith (r.slotText? (r.size + 1)) m = some (plainParts h m) := by
  rw [partsWith, mapM_eq_some_map fun slot _ => slotText?_eq_plainText h slot]
  rfl

/-! ## The loop over a chain of arrays -/

/-- In front of a single array, the recursion writes one more pair of brackets. -/
theorem plainText_of_sole (h : r.WellFormed) {slot inner : Nat} {e : Mask}
    (hd : r.descriptor? slot = some (.arrayOf e)) (hsole : r.soleArray? e = some inner) :
    plainText h slot = plainText h inner ++ ['[', ']'] := by
  have hlt := lt_size_of_descriptor? hd
  have hbelow := h.element_lt slot e hd
  have hinner : inner < r.size := Nat.lt_trans (hbelow inner (mem_of_soleArray? hsole)) hlt
  -- The kind `array` is not listed beside the typed array, so the array is the only member.
  have hparts : plainParts h e = [plainText h inner] := by
    rw [plainParts_eq_parts h fun slot hslot => Nat.lt_trans (hbelow slot hslot) hlt,
      parts_of_soleArray? hsole, plainText_eq_slotChars h hinner]
  rw [plainText_of_array h hd, hparts, elementText_singleton]

theorem addBrackets_zero (text : List Char) : addBrackets text 0 = text :=
  List.append_nil text

/-- Brackets behind a text are one more layer. -/
theorem addBrackets_append (text : List Char) (layers : Nat) :
    addBrackets (text ++ ['[', ']']) layers = addBrackets text (layers + 1) := by
  rw [addBrackets, addBrackets, List.replicate_succ, List.flatten_cons, List.append_assoc]

/-- **The loop keeps the text.** The text of the current slot with the brackets counted so far is the
same after every number of rounds. -/
theorem addBrackets_of_followArrays? (h : r.WellFormed) {steps slot layers last total : Nat}
    (hfollow : r.followArrays? steps slot layers = some (last, total)) :
    addBrackets (plainText h last) total = addBrackets (plainText h slot) layers := by
  induction steps generalizing slot layers with
  | zero => cases hfollow
  | succ steps ih =>
    unfold followArrays? at hfollow
    -- The loop goes on in front of a single array only; in the other cases this is its last round.
    split at hfollow
    · next e hd =>
      split at hfollow
      · next inner hsole =>
        rw [ih hfollow, plainText_of_sole h hd hsole, addBrackets_append]
      · cases hfollow
        rfl
    · cases hfollow
      rfl

/-- From every slot the loop comes to an end. -/
theorem exists_followArrays?_eq_some (h : r.WellFormed) (slot : Nat) :
    ∃ last layers, r.followArrays? (r.size + 1) slot 0 = some (last, layers) := by
  by_cases hlt : slot < r.size
  · obtain ⟨last, chain, hfollow⟩ := exists_followArrays? h hlt
    exact ⟨last, 0 + chain, hfollow _ 0 (Nat.lt_succ_of_lt hlt)⟩
  · have hd := descriptor?_eq_none (Nat.not_lt.mp hlt)
    exact ⟨slot, 0, by simp only [followArrays?, hd]⟩

end Registry

end PhpTypes
