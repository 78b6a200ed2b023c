import PhpTypes.Proofs.Registry.Describe
import PhpTypes.Proofs.TypeExpr.ClassName

/-!
# Texts identify masks

A text of a mask leaves out the kind `array` beside a typed array, puts `null` last, and encloses an
element only if it has several members. Nothing is lost by that: in a well-formed registry whose
classes have class names, different masks have different texts (`Registry.describe_injOn`).

The members of a union can be told apart by their ends: a class starts with a backslash, an array
ends with a bracket, and a word does neither. The texts are cut at the right places because a class
name holds no bracket and no bar, and all bars of an element stand inside its parentheses.
-/

namespace PhpTypes

namespace Registry

open TypeExpr (PassedOver isClassName)

variable {r : Registry}

/-- Every class of the registry has a name that is one by its syntax. -/
def HasClassNames (r : Registry) : Prop :=
  ∀ slot name, r.descriptor? slot = some (.classNamed name) → isClassName name.toList = true

/-! ## The members of a mask -/

/-- The members are the kinds, where typed arrays stand for the kind `array`, and the entries. -/
theorem mem_parts {kinds : KindSet} {slots : SlotSet} {part : List Char} :
    part ∈ r.parts (.of kinds slots) ↔
      (∃ k ∈ kinds, ¬ (k = .array ∧ r.hasTypedArray (.of kinds slots) = true) ∧
        part = k.keyword.toList) ∨
      ∃ slot ∈ slots, part = r.slotChars slot := by
  have hnull : part ∈ (if (Mask.of kinds slots).contains .null then ["null".toList] else []) ↔
      Kind.null ∈ kinds ∧ part = Kind.null.keyword.toList := by
    by_cases h : (Mask.of kinds slots).contains .null = true
    · rw [if_pos h, List.mem_singleton]
      exact (and_iff_right h).symm
    · rw [if_neg h]
      constructor
      · intro hmem
        exact absurd hmem List.not_mem_nil
      · rintro ⟨hmem, -⟩
        exact absurd hmem h
  rw [parts, List.mem_append, List.mem_append, hnull, kindWords]
  simp only [List.mem_map, List.mem_filter, KindSet.mem_toList, SlotSet.mem_toList, Mask.kinds_of,
    Mask.slots_of, Bool.and_eq_true, Bool.not_eq_true', bne_iff_ne, Bool.and_eq_false_iff,
    beq_eq_false_iff_ne]
  constructor
  · rintro ((⟨k, ⟨hk, hne, hshown⟩, rfl⟩ | ⟨slot, hslot, rfl⟩) | ⟨hk, rfl⟩)
    · refine .inl ⟨k, hk, ?_, rfl⟩
      rintro ⟨harray, htyped⟩
      rcases hshown with h | h
      · exact h harray
      · rw [htyped] at h
        cases h
    · exact .inr ⟨slot, hslot, rfl⟩
    · refine .inl ⟨.null, hk, ?_, rfl⟩
      rintro ⟨h, -⟩
      cases h
  · rintro (⟨k, hk, hshown, rfl⟩ | ⟨slot, hslot, rfl⟩)
    · by_cases hne : k = .null
      · rw [hne] at hk ⊢
        exact .inr ⟨hk, rfl⟩
      · refine .inl (.inl ⟨k, ⟨hk, hne, ?_⟩, rfl⟩)
        by_cases harray : k = .array
        · exact .inr (by simpa using fun htyped => hshown ⟨harray, htyped⟩)
        · exact .inl harray
    · exact .inl (.inr ⟨slot, hslot, rfl⟩)

/-- A mask refers to a typed array exactly if one of its slots holds an array. -/
theorem hasTypedArray_iff {kinds : KindSet} {slots : SlotSet} :
    r.hasTypedArray (.of kinds slots) = true ↔
      ∃ slot ∈ slots, ∃ e, r.descriptor? slot = some (.arrayOf e) := by
  rw [hasTypedArray, List.any_eq_true]
  refine exists_congr fun slot => and_congr_right fun _ => ?_
  cases r.descriptor? slot with
  | none => simp
  | some d => cases d <;> simp [Descriptor.isArray]

/-- A mask of which something is known has members. -/
theorem parts_ne_nil {m : Mask} (hvoid : m ≠ .void) (hany : m ≠ .any) : r.parts m ≠ [] := by
  cases m with
  | any => exact absurd rfl hany
  | of kinds slots =>
    intro hnil
    have hnone : ∀ part, part ∉ r.parts (.of kinds slots) := by simp [hnil]
    have hslots : slots = ∅ := by
      refine SlotSet.ext fun slot => ⟨fun hslot => ?_, fun h => absurd h (SlotSet.not_mem_empty _)⟩
      exact absurd (mem_parts.mpr (.inr ⟨slot, hslot, rfl⟩)) (hnone _)
    have htyped : ¬ r.hasTypedArray (.of kinds slots) = true := by
      rw [hasTypedArray_iff, hslots]
      rintro ⟨slot, hslot, -⟩
      exact SlotSet.not_mem_empty slot hslot
    have hkinds : kinds = ∅ := by
      refine KindSet.ext fun k => ⟨fun hk => ?_, fun h => absurd h (KindSet.not_mem_empty _)⟩
      exact absurd (mem_parts.mpr (.inl ⟨k, hk, fun h => htyped h.2, rfl⟩)) (hnone _)
    rw [hslots, hkinds] at hvoid
    exact hvoid rfl

/-! ## The ends of members -/

/-- A text that neither starts like a class nor ends like an array. -/
def IsWord (text : List Char) : Prop :=
  text.head? ≠ some '\\' ∧ text.getLast? ≠ some ']'

/-- The words for kinds neither start with a backslash nor end with a bracket. -/
theorem isWord_keyword (k : Kind) : IsWord k.keyword.toList := by
  cases k <;> exact ⟨by decide, by decide⟩

/-- Different kinds have different words. -/
theorem keyword_inj {k l : Kind} (h : k.keyword.toList = l.keyword.toList) : k = l := by
  cases k <;> cases l <;> first | rfl | exact absurd h (by decide)

/-- The text of an array ends with a bracket. -/
theorem getLast?_slotChars_of_array (h : r.WellFormed) {slot : Nat} {e : Mask}
    (hd : r.descriptor? slot = some (.arrayOf e)) : (r.slotChars slot).getLast? = some ']' := by
  rw [slotChars_of_array h hd, List.getLast?_append]
  rfl

/-- The text of a class ends with a character of its name. -/
theorem getLast?_slotChars_of_class (hnames : r.HasClassNames) {slot : Nat} {name : String}
    (hd : r.descriptor? slot = some (.classNamed name)) :
    ∃ c, (r.slotChars slot).getLast? = some c ∧ TypeExpr.isNameChar c = true := by
  obtain ⟨c, hc, hname⟩ := TypeExpr.exists_getLast?_of_isClassName (hnames slot name hd)
  refine ⟨c, ?_, hname⟩
  rw [slotChars_of_class hd, List.getLast?_cons, hc, Option.getD_some]

/-- The text of an entry is never mistaken for a word. -/
theorem not_isWord_slotChars (h : r.WellFormed) {slot : Nat} (hlt : slot < r.size) :
    ¬ IsWord (r.slotChars slot) := by
  rintro ⟨hfirst, hlast⟩
  obtain ⟨d, hd⟩ := exists_descriptor?_of_lt hlt
  cases d with
  | classNamed name =>
    rw [slotChars_of_class hd] at hfirst
    exact hfirst rfl
  | arrayOf e => exact hlast (getLast?_slotChars_of_array h hd)

/-- No member ends in a parenthesis. -/
theorem getLast?_ne_of_mem_parts (h : r.WellFormed) (hnames : r.HasClassNames) {m : Mask}
    (hm : r.Owns m) (hany : m ≠ .any) {part : List Char} (hpart : part ∈ r.parts m) :
    part.getLast? ≠ some ')' := by
  cases m with
  | any => exact absurd rfl hany
  | of kinds slots =>
    rcases mem_parts.mp hpart with ⟨k, -, -, rfl⟩ | ⟨slot, hslot, rfl⟩
    · cases k <;> decide
    · obtain ⟨d, hd⟩ := exists_descriptor?_of_lt (hm.slot_lt slot hslot)
      cases d with
      | classNamed name =>
        obtain ⟨c, hc, hname⟩ := getLast?_slotChars_of_class hnames hd
        rw [hc]
        rintro ⟨⟩
        exact absurd hname (by decide)
      | arrayOf e =>
        rw [getLast?_slotChars_of_array h hd]
        decide

/-! ## Cutting a text into members -/

/-- If the texts of slots are gone over without a cut, so are the members of the mask. -/
theorem passedOver_parts {m : Mask} {depth : Int} (hany : m ≠ .any)
    (hslots : ∀ slot ∈ m.slots, PassedOver depth (r.slotChars slot)) :
    ∀ part ∈ r.parts m, PassedOver depth part := by
  intro part hpart
  cases m with
  | any => exact absurd rfl hany
  | of kinds slots =>
    rcases mem_parts.mp hpart with ⟨k, -, -, rfl⟩ | ⟨slot, hslot, rfl⟩
    · refine .of_isPlain ?_
      cases k <;> decide
    · exact hslots slot hslot

/-- The text of an entry holds bars inside brackets only. -/
theorem passedOver_slotChars (h : r.WellFormed) (hnames : r.HasClassNames) {slot : Nat}
    (hlt : slot < r.size) {depth : Int} (hdepth : 0 ≤ depth) :
    PassedOver depth (r.slotChars slot) := by
  induction slot using Nat.strong_induction_on generalizing depth with
  | _ slot ih =>
    obtain ⟨d, hd⟩ := exists_descriptor?_of_lt hlt
    cases d with
    | classNamed name =>
      rw [slotChars_of_class hd]
      refine .of_isPlain fun c hc => ?_
      rcases List.mem_cons.mp hc with rfl | hc
      · decide
      · exact TypeExpr.isPlain_of_mem_className (hnames slot name hd) hc
    | arrayOf e =>
      have hparts {depth : Int} (hdepth : 0 ≤ depth) :
          ∀ part ∈ r.parts e, PassedOver depth part := by
        refine passedOver_parts (h.admits slot _ hd).2.1 fun inner hinner => ?_
        have hbelow := h.element_lt slot e hd inner hinner
        exact ih inner hbelow (Nat.lt_trans hbelow hlt) hdepth
      rw [slotChars_of_array h hd]
      refine PassedOver.append ?_ .brackets
      unfold elementText
      split
      · -- Inside the parentheses the bars between members stand one level further in.
        have hin : 0 ≤ depth + 1 := by omega
        exact .enclosed (by decide) (by decide) (.join (by omega) (hparts hin))
      · next hlen =>
        match hp : r.parts e, hlen with
        | [], _ => exact .nil
        | [part], _ =>
          rw [List.flatten_singleton]
          exact hparts hdepth part (by rw [hp]; exact List.mem_singleton_self part)
        | _ :: _ :: _, hlen => exact absurd (by simp) hlen

/-- Cutting the text of a mask gives its members back. -/
theorem splitBars_join_parts (h : r.WellFormed) (hnames : r.HasClassNames) {m : Mask}
    (hm : r.Owns m) (hvoid : m ≠ .void) (hany : m ≠ .any) :
    TypeExpr.splitBars 0 (Text.join '|' (r.parts m)) = r.parts m :=
  TypeExpr.splitBars_join (parts_ne_nil hvoid hany) <| passedOver_parts hany fun slot hslot =>
    passedOver_slotChars h hnames (hm.slot_lt slot hslot) (Int.le_refl 0)

/-- The texts of elements are equal only if their members are. -/
theorem parts_eq_of_elementText_eq (h : r.WellFormed) (hnames : r.HasClassNames) {a b : Mask}
    (ha : r.Admits (.arrayOf a)) (hb : r.Admits (.arrayOf b))
    (heq : elementText (r.parts a) = elementText (r.parts b)) : r.parts a = r.parts b := by
  obtain ⟨haVoid, haAny, haOwns⟩ := ha
  obtain ⟨hbVoid, hbAny, hbOwns⟩ := hb
  -- Several members end in a parenthesis, and a single member does not.
  have hsingle {m : Mask} (hm : r.Owns m) (hvoid : m ≠ .void) (hany : m ≠ .any)
      (hlen : ¬ (r.parts m).length > 1) :
      r.parts m = [elementText (r.parts m)] ∧ (elementText (r.parts m)).getLast? ≠ some ')' := by
    match hp : r.parts m, hlen with
    | [], _ => exact absurd hp (parts_ne_nil hvoid hany)
    | [part], _ =>
      rw [elementText_singleton]
      refine ⟨rfl, getLast?_ne_of_mem_parts h hnames hm hany ?_⟩
      rw [hp]
      exact List.mem_singleton_self part
    | _ :: _ :: _, hlen => exact absurd (by simp) hlen
  have hseveral {parts : List (List Char)} (hlen : parts.length > 1) :
      elementText parts = '(' :: Text.join '|' parts ++ [')'] := by
    rw [elementText, if_pos hlen]
  by_cases hlenA : (r.parts a).length > 1
  · by_cases hlenB : (r.parts b).length > 1
    · rw [hseveral hlenA, hseveral hlenB] at heq
      have hjoin : Text.join '|' (r.parts a) = Text.join '|' (r.parts b) :=
        (List.cons.inj (List.append_inj_left' heq rfl)).2
      rw [← splitBars_join_parts h hnames haOwns haVoid haAny, hjoin,
        splitBars_join_parts h hnames hbOwns hbVoid hbAny]
    · obtain ⟨-, hlast⟩ := hsingle hbOwns hbVoid hbAny hlenB
      rw [← heq, hseveral hlenA, List.getLast?_concat] at hlast
      exact absurd rfl hlast
  · obtain ⟨hpartsA, hlast⟩ := hsingle haOwns haVoid haAny hlenA
    by_cases hlenB : (r.parts b).length > 1
    · rw [heq, hseveral hlenB, List.getLast?_concat] at hlast
      exact absurd rfl hlast
    · obtain ⟨hpartsB, -⟩ := hsingle hbOwns hbVoid hbAny hlenB
      rw [hpartsA, hpartsB, heq]

/-! ## Members identify the mask -/

/-- What one mask refers to and lists, another one with the same members does as well. -/
private theorem mem_of_parts_eq (h : r.WellFormed) {kinds kinds' : KindSet} {slots slots' : SlotSet}
    (hm : r.Owns (.of kinds slots)) (hm' : r.Owns (.of kinds' slots'))
    (hparts : r.parts (.of kinds slots) = r.parts (.of kinds' slots'))
    (hslots : ∀ slot ∈ slots, ∀ slot' ∈ slots',
      r.slotChars slot = r.slotChars slot' → slot = slot') :
    (∀ slot ∈ slots, slot ∈ slots') ∧ ∀ k ∈ kinds, k ∈ kinds' := by
  -- The text of a slot is no word, so it is the text of a slot on the other side too.
  have hsub : ∀ slot ∈ slots, slot ∈ slots' := by
    intro slot hslot
    have hpart : r.slotChars slot ∈ r.parts (.of kinds' slots') :=
      hparts ▸ mem_parts.mpr (.inr ⟨slot, hslot, rfl⟩)
    rcases mem_parts.mp hpart with ⟨k, -, -, heq⟩ | ⟨slot', hslot', heq⟩
    · exact absurd (heq ▸ isWord_keyword k) (not_isWord_slotChars h (hm.slot_lt slot hslot))
    · rwa [hslots slot hslot slot' hslot' heq]
  refine ⟨hsub, fun k hk => ?_⟩
  by_cases hhidden : k = .array ∧ r.hasTypedArray (.of kinds slots) = true
  · -- A typed array hides the kind `array`, and the other mask has this typed array as well.
    obtain ⟨rfl, htyped⟩ := hhidden
    obtain ⟨slot, hslot, e, he⟩ := hasTypedArray_iff.mp htyped
    exact hm'.array_mem slot (hsub slot hslot) e he
  · have hpart : k.keyword.toList ∈ r.parts (.of kinds' slots') :=
      hparts ▸ mem_parts.mpr (.inl ⟨k, hk, hhidden, rfl⟩)
    rcases mem_parts.mp hpart with ⟨l, hl, -, heq⟩ | ⟨slot', hslot', heq⟩
    · rwa [keyword_inj heq]
    · exact absurd (heq ▸ isWord_keyword k) (not_isWord_slotChars h (hm'.slot_lt slot' hslot'))

/-- Masks with the same members are equal, if the entries they refer to can be told apart. -/
theorem eq_of_parts_eq (h : r.WellFormed) {a b : Mask} (ha : r.Owns a) (hb : r.Owns b)
    (haAny : a ≠ .any) (hbAny : b ≠ .any) (hparts : r.parts a = r.parts b)
    (hslots : ∀ slot ∈ a.slots, ∀ slot' ∈ b.slots,
      r.slotChars slot = r.slotChars slot' → slot = slot') : a = b := by
  cases a with
  | any => exact absurd rfl haAny
  | of kinds slots =>
    cases b with
    | any => exact absurd rfl hbAny
    | of kinds' slots' =>
      obtain ⟨hsub, hkinds⟩ := mem_of_parts_eq h ha hb hparts hslots
      obtain ⟨hsub', hkinds'⟩ := mem_of_parts_eq h hb ha hparts.symm
        fun slot hslot slot' hslot' heq => (hslots slot' hslot' slot hslot heq.symm).symm
      have hk : kinds = kinds' := KindSet.ext fun k => ⟨hkinds k, hkinds' k⟩
      have hs : slots = slots' := SlotSet.ext fun n => ⟨hsub n, hsub' n⟩
      rw [hk, hs]

/-- The text of a class is never that of an array: their last characters differ. -/
theorem slotChars_ne_of_class_of_array (h : r.WellFormed) (hnames : r.HasClassNames)
    {slot slot' : Nat} {name : String} {e : Mask}
    (hd : r.descriptor? slot = some (.classNamed name))
    (hd' : r.descriptor? slot' = some (.arrayOf e)) : r.slotChars slot ≠ r.slotChars slot' := by
  intro heq
  obtain ⟨c, hc, hname⟩ := getLast?_slotChars_of_class hnames hd
  rw [heq, getLast?_slotChars_of_array h hd'] at hc
  rw [← Option.some.inj hc] at hname
  exact absurd hname (by decide)

/-- Different entries have different texts. The induction is on the slot, as the entries of an
element come before the array. -/
theorem slotChars_injOn (h : r.WellFormed) (hnames : r.HasClassNames) {slot slot' : Nat}
    (hlt : slot < r.size) (hlt' : slot' < r.size)
    (heq : r.slotChars slot = r.slotChars slot') : slot = slot' := by
  induction slot using Nat.strong_induction_on generalizing slot' with
  | _ slot ih =>
    obtain ⟨d, hd⟩ := exists_descriptor?_of_lt hlt
    obtain ⟨d', hd'⟩ := exists_descriptor?_of_lt hlt'
    cases d with
    | classNamed name =>
      cases d' with
      | classNamed name' =>
        rw [slotChars_of_class hd, slotChars_of_class hd'] at heq
        have hname : name = name' := String.toList_inj.mp (List.cons.inj heq).2
        exact h.slot_unique hd hd' (by rw [hname])
      | arrayOf e' => exact absurd heq (slotChars_ne_of_class_of_array h hnames hd hd')
    | arrayOf e =>
      cases d' with
      | classNamed name' => exact absurd heq.symm (slotChars_ne_of_class_of_array h hnames hd' hd)
      | arrayOf e' =>
        have hadmits := h.admits slot _ hd
        have hadmits' := h.admits slot' _ hd'
        rw [slotChars_of_array h hd, slotChars_of_array h hd'] at heq
        have hparts := parts_eq_of_elementText_eq h hnames hadmits hadmits'
          (List.append_inj_left' heq rfl)
        have hmask : e = e' := by
          refine eq_of_parts_eq h hadmits.2.2 hadmits'.2.2 hadmits.2.1 hadmits'.2.1 hparts ?_
          intro inner hinner inner' hinner' hinnerEq
          have hbelow := h.element_lt slot e hd inner hinner
          exact ih inner hbelow (Nat.lt_trans hbelow hlt)
            (hadmits'.2.2.slot_lt inner' hinner') hinnerEq
        exact h.slot_unique hd hd' (by rw [hmask])

/-- A word that is not that of a kind is no text of a mask with members. -/
theorem join_parts_ne (h : r.WellFormed) (hnames : r.HasClassNames) {m : Mask} (hm : r.Owns m)
    (hvoid : m ≠ .void) (hany : m ≠ .any) {word : List Char} (hword : IsWord word)
    (hkinds : ∀ k : Kind, k.keyword.toList ≠ word)
    (hsplit : TypeExpr.splitBars 0 word = [word]) : Text.join '|' (r.parts m) ≠ word := by
  intro heq
  have hparts := splitBars_join_parts h hnames hm hvoid hany
  rw [heq, hsplit] at hparts
  have hmem : word ∈ r.parts m := by
    rw [← hparts]
    exact List.mem_singleton_self word
  cases m with
  | any => exact hany rfl
  | of kinds slots =>
    rcases mem_parts.mp hmem with ⟨k, -, -, hk⟩ | ⟨slot, hslot, hchars⟩
    · exact hkinds k hk.symm
    · exact not_isWord_slotChars h (hm.slot_lt slot hslot) (hchars ▸ hword)

/-! ## Texts of masks -/

/-- The mask without members is written `void`. -/
theorem describe_void (r : Registry) : r.describe .void = "void" := rfl

/-- The top is written `mixed`. -/
theorem describe_any (r : Registry) : r.describe .any = "mixed" := rfl

/-- A mask with members is written as these with bars between them. -/
theorem toList_describe (h : r.WellFormed) {m : Mask} (hm : r.Owns m) (hvoid : m ≠ .void)
    (hany : m ≠ .any) : (r.describe m).toList = Text.join '|' (r.parts m) := by
  have hnotAny : m.isAny = false := by
    cases m with
    | any => exact absurd rfl hany
    | of kinds slots => rfl
  have hnotVoid : m.isVoid = false := by simpa [Mask.isVoid] using hvoid
  rw [describe, describe?_eq h hm, hnotAny, hnotVoid]
  exact String.toList_ofList

/-- A mask with members is not written like `void` or `any`. -/
theorem describe_ne_word (h : r.WellFormed) (hnames : r.HasClassNames) {m : Mask} (hm : r.Owns m)
    (hvoid : m ≠ .void) (hany : m ≠ .any) :
    r.describe m ≠ "void" ∧ r.describe m ≠ "mixed" := by
  have hword {word : String} (hword : IsWord word.toList)
      (hkinds : ∀ k : Kind, k.keyword.toList ≠ word.toList)
      (hsplit : TypeExpr.splitBars 0 word.toList = [word.toList]) : r.describe m ≠ word := by
    intro heq
    have hchars := toList_describe h hm hvoid hany
    rw [heq] at hchars
    exact join_parts_ne h hnames hm hvoid hany hword hkinds hsplit hchars.symm
  exact ⟨hword ⟨by decide, by decide⟩ (fun k => by cases k <;> decide) (by decide),
    hword ⟨by decide, by decide⟩ (fun k => by cases k <;> decide) (by decide)⟩

/-- **Different masks have different texts**, if every class has a class name. -/
theorem describe_injOn (h : r.WellFormed) (hnames : r.HasClassNames) {a b : Mask} (ha : r.Owns a)
    (hb : r.Owns b) (heq : r.describe a = r.describe b) : a = b := by
  -- The texts of the two special masks are the text of no other mask.
  have hspecial {m n : Mask} (hn : r.Owns n) (heq : r.describe m = r.describe n)
      (hm : m = .void ∨ m = .any) : m = n := by
    by_cases hnVoid : n = .void
    · rcases hm with rfl | rfl
      · exact hnVoid.symm
      · rw [hnVoid, describe_any, describe_void] at heq
        exact absurd heq (by decide)
    · by_cases hnAny : n = .any
      · rcases hm with rfl | rfl
        · rw [hnAny, describe_any, describe_void] at heq
          exact absurd heq (by decide)
        · exact hnAny.symm
      · obtain ⟨hneVoid, hneAny⟩ := describe_ne_word h hnames hn hnVoid hnAny
        rcases hm with rfl | rfl
        · exact absurd heq.symm hneVoid
        · exact absurd heq.symm hneAny
  by_cases haSpecial : a = .void ∨ a = .any
  · exact hspecial hb heq haSpecial
  · by_cases hbSpecial : b = .void ∨ b = .any
    · exact (hspecial ha heq.symm hbSpecial).symm
    · rw [not_or] at haSpecial hbSpecial
      have hjoin := congrArg String.toList heq
      rw [toList_describe h ha haSpecial.1 haSpecial.2,
        toList_describe h hb hbSpecial.1 hbSpecial.2] at hjoin
      have hparts : r.parts a = r.parts b := by
        rw [← splitBars_join_parts h hnames ha haSpecial.1 haSpecial.2, hjoin,
          splitBars_join_parts h hnames hb hbSpecial.1 hbSpecial.2]
      refine eq_of_parts_eq h ha hb haSpecial.2 hbSpecial.2 hparts ?_
      intro slot hslot slot' hslot' hchars
      exact slotChars_injOn h hnames (ha.slot_lt slot hslot) (hb.slot_lt slot' hslot') hchars

end Registry

end PhpTypes
