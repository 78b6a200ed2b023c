import PhpTypes.Proofs.Registry.Legible
import PhpTypes.Proofs.TypeExpr.Layers
import PhpTypes.Proofs.TypeExpr.Resolved

/-!
# Reading the text of a mask

Some masks are read back from their texts: those whose classes come with `null` and whose arrays
hold, at the innermost level, values of one kind (`Registry.Expressible`). Reading such a text gives
the mask itself and adds nothing to the registry, whatever scope it is read in
(`Registry.resolveText_of_describe`).

Every member is read by itself: words give kinds (`resolve_keyword`), a name behind a backslash
gives the class of that name (`resolve_slotChars_of_class`), and arrays follow by induction on their
layers (`NestsKind.resolve_slotChars`). The alternatives of the text are just these members.

Names in the text must be legible. A class name may hold blanks beyond ASCII, and a blank at its end
is lost when the text is split.
-/

namespace PhpTypes

/-- A class name that does not end in a blank. -/
structure IsLegible (name : String) : Prop where
  isClassName : TypeExpr.isClassName name.toList = true
  last : ∀ c, name.toList.getLast? = some c → Text.isBlank c = false

namespace Registry

/-- The entry is an array, of any depth, whose innermost element is one kind. -/
inductive NestsKind (r : Registry) : Nat → Prop
  | kind {slot : Nat} (k : Kind) (h : r.descriptor? slot = some (.arrayOf (.ofKind k))) :
      NestsKind r slot
  | array {slot inner : Nat}
      (h : r.descriptor? slot = some (.arrayOf (.of (.single .array) (.single inner))))
      (hinner : NestsKind r inner) : NestsKind r slot

/-- The mask lists `null` beside every class, and its arrays hold values of one kind at the
innermost level. -/
structure Expressible (r : Registry) (m : Mask) : Prop where
  null_mem : ∀ slot ∈ m.slots, ∀ name, r.descriptor? slot = some (.classNamed name) →
    Kind.null ∈ m.kinds
  nestsKind : ∀ slot ∈ m.slots, ∀ e, r.descriptor? slot = some (.arrayOf e) → r.NestsKind slot

end Registry

namespace TypeExpr

variable {r : Registry} {scope : Option Scope} {fullyQualified : Bool}

/-! ## Members -/

/-- The word for a kind is a member as it stands. -/
theorem member_keyword (k : Kind) : Member k.keyword.toList :=
  .of_word (by cases k <;> decide) (by cases k <;> decide)

/-- A legible name behind a backslash is a member as it stands. -/
theorem member_className {name : String} (h : IsLegible name) : Member ('\\' :: name.toList) where
  passedOver := by
    refine .of_isPlain fun c hc => ?_
    rcases List.mem_cons.mp hc with rfl | hc
    · decide
    · exact isPlain_of_mem_className h.isClassName hc
  first := ⟨'\\', rfl, by decide⟩
  last := by
    obtain ⟨c, hc, hname⟩ := exists_getLast?_of_isClassName h.isClassName
    refine ⟨c, ?_, h.last c hc, ?_⟩
    · rw [List.getLast?_cons, hc, Option.getD_some]
    · rw [Bool.eq_false_iff]
      intro htrailing
      simp only [isTrailing, Bool.or_eq_true, beq_iff_eq] at htrailing
      rcases htrailing with rfl | rfl <;> exact absurd hname (by decide)

/-- Brackets behind a member leave it one. -/
theorem Member.brackets {text : List Char} (h : Member text) : Member (text ++ ['[', ']']) where
  passedOver := h.passedOver.append .brackets
  first := by
    obtain ⟨c, hc, hrest⟩ := h.first
    refine ⟨c, ?_, hrest⟩
    rw [List.head?_append, hc, Option.some_or]
  last := ⟨']', by simp, by decide⟩

/-! ## Single annotations -/

/-- A member that ends in no bracket has no layers. -/
theorem resolve_of_member {text : List Char} (h : Member text) (hlast : text.getLast? ≠ some ']') :
    resolve scope fullyQualified (.ofList text) r =
      resolveCore scope fullyQualified (.ofList text) r := by
  refine resolve_of_trim_eq ?_ ?_
  · rw [String.toList_ofList, h.trim_eq]
  · rwa [String.toList_ofList]

/-- The word for a kind is read as that kind. -/
theorem resolve_keyword (k : Kind) :
    resolve scope fullyQualified (.ofList k.keyword.toList) r = (.ofKind k, r) := by
  rw [resolve_of_member (member_keyword k) (by cases k <;> decide), String.ofList_toList,
    resolveCore]
  cases k <;> rfl

/-- A name behind a backslash is read as the class that has this name. -/
theorem resolve_slotChars_of_class (h : r.WellFormed) {slot : Nat} {name : String}
    (hd : r.descriptor? slot = some (.classNamed name)) (hname : IsLegible name)
    (hword : Keyword.lookup? name = none) :
    resolve scope fullyQualified (.ofList (r.slotChars slot)) r =
      (.of (.single .null) (.single slot), r) := by
  have hhead : name.toList.head? ≠ some '\\' := h.admits slot _ hd
  have hchars : (String.ofList ('\\' :: name.toList)).toList = '\\' :: name.toList :=
    String.toList_ofList
  have htrim : Text.trim (String.ofList ('\\' :: name.toList)).toList =
      (String.ofList ('\\' :: name.toList)).toList := by
    rw [hchars, (member_className hname).trim_eq]
  have hclass : isClassName (String.ofList ('\\' :: name.toList)).toList = true := by
    rw [hchars, isClassName_cons_backslash hhead, hname.isClassName]
  have htext : (QualifiedName.parse (.ofList ('\\' :: name.toList))).toText = name := by
    rw [toText_parse hclass htrim, hchars, nameBody_cons, String.ofList_toList]
  have hresolve : resolveName scope (.ofList ('\\' :: name.toList)) fullyQualified =
      .parse (.ofList ('\\' :: name.toList)) :=
    resolveName_of_backslash (by rw [htrim, hchars, List.head?_cons]) scope fullyQualified
  have hmask : r.classMask name = (.of ∅ (.single slot), r) := by
    rw [Registry.classMask_eq h hhead, Registry.internMask, Registry.intern_of_held h hd rfl]
    exact Prod.ext (Registry.slotMask_of_class hd) rfl
  have hnull : Mask.of ∅ (.single slot) ∪ .ofKind .null = .of (.single .null) (.single slot) := by
    rw [Mask.ofKind, Mask.of_union_of]
    exact congrArg₂ Mask.of (KindSet.ext fun k => by simp) (SlotSet.ext fun n => by simp)
  rw [Registry.slotChars_of_class hd, resolve_className hclass htrim, hresolve,
    Registry.namedMask_of_lookup?_eq_none (by rw [htext, hword])]
  simp only [Registry.nominalMask, htext, hmask, hnull, if_true]

/-- The text of an array is read as the array, if that of its only member is read as the element. -/
theorem resolve_slotChars_of_array (h : r.WellFormed) {slot : Nat} {e : Mask} {text : List Char}
    (hd : r.descriptor? slot = some (.arrayOf e)) (hparts : r.parts e = [text])
    (hmember : Member text) (hresolve : resolve scope fullyQualified (.ofList text) r = (e, r)) :
    Member (r.slotChars slot) ∧
      resolve scope fullyQualified (.ofList (r.slotChars slot)) r =
        (.of (.single .array) (.single slot), r) := by
  have hchars : r.slotChars slot = text ++ ['[', ']'] := by
    rw [Registry.slotChars_of_array h hd, hparts, Registry.elementText_singleton]
  rw [hchars]
  refine ⟨hmember.brackets, ?_⟩
  rw [resolve_brackets, hresolve, Registry.arrayOf_of_known h (h.admits slot _ hd),
    Registry.internMask, Registry.intern_of_held h hd rfl]
  exact Prod.ext (Registry.slotMask_of_array hd) rfl

/-- The only member of a kind is its word. -/
theorem parts_ofKind (r : Registry) (k : Kind) : r.parts (.ofKind k) = [k.keyword.toList] := by
  cases k <;> rfl

/-- The only member of a single array is its text, without the word `array`. -/
theorem parts_of_single_array {inner : Nat} {e : Mask}
    (hd : r.descriptor? inner = some (.arrayOf e)) :
    r.parts (.of (.single .array) (.single inner)) = [r.slotChars inner] := by
  refine Registry.parts_of_soleArray? ?_
  have hkinds : (KindSet.single .array).toList.any (· != .array) = false := by decide
  have harray : (r.descriptor? inner).any Descriptor.isArray = true := by rw [hd]; rfl
  simp [Registry.soleArray?, hkinds, harray, SlotSet.single]

/-- The text of an array of one kind, of any depth, is read as the array. The induction is on the
layers. -/
theorem resolve_slotChars_of_nestsKind (h : r.WellFormed) {slot : Nat} (hslot : r.NestsKind slot) :
    Member (r.slotChars slot) ∧
      resolve scope fullyQualified (.ofList (r.slotChars slot)) r =
        (.of (.single .array) (.single slot), r) := by
  induction hslot with
  | kind k hd =>
    exact resolve_slotChars_of_array h hd (parts_ofKind r k) (member_keyword k) (resolve_keyword k)
  | array hd hinner ih =>
    obtain ⟨e, he⟩ : ∃ e, r.descriptor? _ = some (.arrayOf e) := by
      cases hinner with
      | kind k hd => exact ⟨_, hd⟩
      | array hd _ => exact ⟨_, hd⟩
    exact resolve_slotChars_of_array h hd (parts_of_single_array he) ih.1 ih.2

end TypeExpr

/-! ## Unions -/

/-- A union of several masks is made of their kinds and slots. -/
theorem Mask.unionAll_eq {ms : List Mask} {kinds : KindSet} {slots : SlotSet}
    (hany : ∀ m ∈ ms, m ≠ .any) (hkinds : ∀ k, k ∈ kinds ↔ ∃ m ∈ ms, k ∈ m.kinds)
    (hslots : ∀ n, n ∈ slots ↔ ∃ m ∈ ms, n ∈ m.slots) : unionAll ms = .of kinds slots := by
  have hfold (k : KindSet) (s : SlotSet) : ∃ k' s', ms.foldl (· ∪ ·) (.of k s) = .of k' s' ∧
      (∀ a, a ∈ k' ↔ a ∈ k ∨ ∃ m ∈ ms, a ∈ m.kinds) ∧
      ∀ n, n ∈ s' ↔ n ∈ s ∨ ∃ m ∈ ms, n ∈ m.slots := by
    clear hkinds hslots
    induction ms generalizing k s with
    | nil => exact ⟨k, s, rfl, by simp, by simp⟩
    | cons m rest ih =>
      cases m with
      | any => exact absurd rfl (hany .any List.mem_cons_self)
      | of l t =>
        obtain ⟨k', s', hrest, hk, hs⟩ :=
          ih (fun m hm => hany m (List.mem_cons_of_mem _ hm)) (k ∪ l) (s ∪ t)
        refine ⟨k', s', hrest, fun a => ?_, fun n => ?_⟩
        · rw [hk, KindSet.mem_union, or_assoc]
          simp
        · rw [hs, SlotSet.mem_union, or_assoc]
          simp
  obtain ⟨k, s, heq, hk, hs⟩ := hfold ∅ ∅
  have hkeq : k = kinds := KindSet.ext fun a => by rw [hk, hkinds]; simp
  have hseq : s = slots := SlotSet.ext fun n => by rw [hs, hslots]; simp
  rw [unionAll, void, heq, hkeq, hseq]

namespace TypeExpr

variable {r : Registry} {scope : Option Scope} {fullyQualified : Bool}

/-- Annotations that add nothing are read as the union of their masks. -/
theorem resolveAll_of_forall {texts : List String} {mask : String → Mask}
    (h : ∀ text ∈ texts, resolve scope fullyQualified text r = (mask text, r)) :
    resolveAll scope fullyQualified texts r = (Mask.unionAll (texts.map mask), r) := by
  rw [resolveAll, Mask.unionAll]
  generalize Mask.void = acc
  induction texts generalizing acc with
  | nil => rfl
  | cons text rest ih =>
    rw [List.foldl_cons, List.map_cons, List.foldl_cons]
    dsimp only
    rw [h text List.mem_cons_self]
    exact ih (fun other hother => h other (List.mem_cons_of_mem _ hother)) _

end TypeExpr

namespace Registry

open TypeExpr

variable {r : Registry} {kinds : KindSet} {slots : SlotSet}

/-- The names of the classes that a mask refers to are legible, and none is a bare word of the
vocabulary. -/
def HasLegibleNames (r : Registry) (m : Mask) : Prop :=
  ∀ slot ∈ m.slots, ∀ name, r.descriptor? slot = some (.classNamed name) →
    IsLegible name ∧ Keyword.lookup? name = none

/-- The text of an entry is read as the entry, with `null` for a class and `array` for an array. -/
theorem Expressible.resolve_slotChars (h : r.WellFormed) (hm : r.Owns (.of kinds slots))
    (hexp : r.Expressible (.of kinds slots)) (hnames : r.HasLegibleNames (.of kinds slots))
    (scope : Option Scope) {slot : Nat} (hslot : slot ∈ slots) :
    ∃ k ∈ kinds, Member (r.slotChars slot) ∧
      resolve scope false (.ofList (r.slotChars slot)) r =
        (.of (.single k) (.single slot), r) ∧
      ∀ e, r.descriptor? slot = some (.arrayOf e) → k = .array := by
  obtain ⟨d, hd⟩ := exists_descriptor?_of_lt (hm.slot_lt slot hslot)
  cases d with
  | classNamed name =>
    obtain ⟨hlegible, hword⟩ := hnames slot hslot name hd
    refine ⟨.null, hexp.null_mem slot hslot name hd, ?_,
      resolve_slotChars_of_class h hd hlegible hword, ?_⟩
    · rw [slotChars_of_class hd]
      exact member_className hlegible
    · intro e he
      cases hd.symm.trans he
  | arrayOf e =>
    obtain ⟨hmember, hresolve⟩ :=
      resolve_slotChars_of_nestsKind h (hexp.nestsKind slot hslot e hd)
    exact ⟨.array, hm.array_mem slot hslot e hd, hmember, hresolve, fun _ _ => rfl⟩

/-- The text of a member is read as a part of the mask. -/
theorem Expressible.resolve_part (h : r.WellFormed) (hm : r.Owns (.of kinds slots))
    (hexp : r.Expressible (.of kinds slots)) (hnames : r.HasLegibleNames (.of kinds slots))
    (scope : Option Scope) {part : List Char} (hpart : part ∈ r.parts (.of kinds slots)) :
    Member part ∧ ∃ k s, resolve scope false (.ofList part) r = (.of k s, r) ∧
      (∀ a ∈ k, a ∈ kinds) ∧ ∀ n ∈ s, n ∈ slots := by
  rcases mem_parts.mp hpart with ⟨k, hk, -, rfl⟩ | ⟨slot, hslot, rfl⟩
  · refine ⟨member_keyword k, _, _, resolve_keyword k, fun a ha => ?_, fun n hn => ?_⟩
    · rwa [KindSet.mem_single.mp ha]
    · exact absurd hn (SlotSet.not_mem_empty n)
  · obtain ⟨k, hk, hmember, hresolve, -⟩ := hexp.resolve_slotChars h hm hnames scope hslot
    refine ⟨hmember, _, _, hresolve, fun a ha => ?_, fun n hn => ?_⟩
    · rwa [KindSet.mem_single.mp ha]
    · rwa [SlotSet.mem_single.mp hn]

/-- Every kind of the mask is read from a member; `array` may be read from a typed array. -/
theorem Expressible.exists_part_of_kind (h : r.WellFormed) (hm : r.Owns (.of kinds slots))
    (hexp : r.Expressible (.of kinds slots)) (hnames : r.HasLegibleNames (.of kinds slots))
    (scope : Option Scope) {k : Kind} (hk : k ∈ kinds) :
    ∃ part ∈ r.parts (.of kinds slots),
      k ∈ (resolve scope false (.ofList part) r).1.kinds := by
  by_cases hhidden : k = .array ∧ r.hasTypedArray (.of kinds slots) = true
  · obtain ⟨rfl, htyped⟩ := hhidden
    obtain ⟨slot, hslot, e, he⟩ := hasTypedArray_iff.mp htyped
    obtain ⟨l, -, -, hresolve, harray⟩ := hexp.resolve_slotChars h hm hnames scope hslot
    refine ⟨_, mem_parts.mpr (.inr ⟨slot, hslot, rfl⟩), ?_⟩
    rw [hresolve, harray e he]
    exact KindSet.mem_single.mpr rfl
  · refine ⟨_, mem_parts.mpr (.inl ⟨k, hk, hhidden, rfl⟩), ?_⟩
    rw [resolve_keyword]
    exact KindSet.mem_single.mpr rfl

/-- Every entry of the mask is read from a member. -/
theorem Expressible.exists_part_of_slot (h : r.WellFormed) (hm : r.Owns (.of kinds slots))
    (hexp : r.Expressible (.of kinds slots)) (hnames : r.HasLegibleNames (.of kinds slots))
    (scope : Option Scope) {slot : Nat} (hslot : slot ∈ slots) :
    ∃ part ∈ r.parts (.of kinds slots),
      slot ∈ (resolve scope false (.ofList part) r).1.slots := by
  obtain ⟨l, -, -, hresolve, -⟩ := hexp.resolve_slotChars h hm hnames scope hslot
  refine ⟨_, mem_parts.mpr (.inr ⟨slot, hslot, rfl⟩), ?_⟩
  rw [hresolve]
  exact SlotSet.mem_single.mpr rfl

/-- A mask with members is read back from them. -/
theorem Expressible.resolveAll_parts (h : r.WellFormed) (hm : r.Owns (.of kinds slots))
    (hexp : r.Expressible (.of kinds slots)) (hnames : r.HasLegibleNames (.of kinds slots))
    (scope : Option Scope) :
    (∀ part ∈ r.parts (.of kinds slots), Member part) ∧
      resolveAll scope false ((r.parts (.of kinds slots)).map String.ofList) r =
        (.of kinds slots, r) := by
  have hpart (part : List Char) (hmem : part ∈ r.parts (.of kinds slots)) :=
    hexp.resolve_part h hm hnames scope hmem
  refine ⟨fun part hmem => (hpart part hmem).1, ?_⟩
  have hread : ∀ text ∈ (r.parts (.of kinds slots)).map String.ofList,
      resolve scope false text r = ((resolve scope false text r).1, r) := by
    intro text htext
    obtain ⟨part, hmem, rfl⟩ := List.mem_map.mp htext
    obtain ⟨-, k, s, hresolve, -⟩ := hpart part hmem
    rw [hresolve]
  rw [resolveAll_of_forall hread, List.map_map]
  -- What a member is read as belongs to the mask, and nothing of the mask is missing.
  refine Prod.ext (Mask.unionAll_eq ?_ ?_ ?_) rfl
  · intro m hmask
    obtain ⟨part, hmem, rfl⟩ := List.mem_map.mp hmask
    obtain ⟨-, k, s, hresolve, -⟩ := hpart part hmem
    rw [Function.comp_apply, hresolve]
    exact fun heq => by cases heq
  · refine fun k => ⟨fun hk => ?_, ?_⟩
    · obtain ⟨part, hmem, hkind⟩ := hexp.exists_part_of_kind h hm hnames scope hk
      exact ⟨_, List.mem_map_of_mem hmem, hkind⟩
    · rintro ⟨m, hmask, hk⟩
      obtain ⟨part, hmem, rfl⟩ := List.mem_map.mp hmask
      obtain ⟨-, l, s, hresolve, hkinds, -⟩ := hpart part hmem
      rw [Function.comp_apply, hresolve] at hk
      exact hkinds k hk
  · refine fun n => ⟨fun hn => ?_, ?_⟩
    · obtain ⟨part, hmem, hslot⟩ := hexp.exists_part_of_slot h hm hnames scope hn
      exact ⟨_, List.mem_map_of_mem hmem, hslot⟩
    · rintro ⟨m, hmask, hn⟩
      obtain ⟨part, hmem, rfl⟩ := List.mem_map.mp hmask
      obtain ⟨-, l, s, hresolve, -, hslots⟩ := hpart part hmem
      rw [Function.comp_apply, hresolve] at hn
      exact hslots n hn

/-- A word of the vocabulary, as the text of a doc comment, stands for its meaning. -/
theorem resolveText_word {word : String} {keyword : Keyword} (hmember : Member word.toList)
    (hlast : word.toList.getLast? ≠ some ']') (hword : Keyword.lookup? word = some keyword)
    (scope : Option Scope) :
    resolveText scope word r = (Mask.unionAll [keyword.mask], r) := by
  have hsplit : splitAlternatives word = [word] := by
    have hjoin := splitAlternatives_join (List.cons_ne_nil word.toList [])
      fun part hpart => by rwa [List.mem_singleton.mp hpart]
    rwa [Text.join_singleton, List.map_singleton, String.ofList_toList] at hjoin
  have hread : ∀ text ∈ [word], resolve scope false text r = ((fun _ => keyword.mask) text, r) := by
    intro text htext
    rw [List.mem_singleton.mp htext]
    exact resolve_of_lookup? hmember.trim_eq hlast hword
  rw [resolveText, hsplit, resolveAll_of_forall hread, List.map_singleton]

/-- **Reading the text of a mask gives the mask** and adds nothing, in every scope. -/
theorem resolveText_of_describe (h : r.WellFormed) {m : Mask} (hm : r.Owns m)
    (hexp : r.Expressible m) (hnames : r.HasLegibleNames m) (scope : Option Scope) :
    resolveText scope (r.describe m) r = (m, r) := by
  by_cases hvoid : m = .void
  · have hmember : Member "void".toList := .of_word (by decide) (by decide)
    have hword : Keyword.lookup? "void" = some .void := rfl
    rw [hvoid, describe_void]
    exact resolveText_word hmember (by decide) hword scope
  · by_cases hany : m = .any
    · have hmember : Member "mixed".toList := .of_word (by decide) (by decide)
      have hword : Keyword.lookup? "mixed" = some .mixed := rfl
      rw [hany, describe_any]
      exact resolveText_word hmember (by decide) hword scope
    · have htext : r.describe m = .ofList (Text.join '|' (r.parts m)) := by
        rw [← toList_describe h hm hvoid hany, String.ofList_toList]
      cases m with
      | any => exact absurd rfl hany
      | of kinds slots =>
        obtain ⟨hmembers, hread⟩ := hexp.resolveAll_parts h hm hnames scope
        rw [resolveText, htext, splitAlternatives_join (parts_ne_nil hvoid hany) hmembers, hread]

end Registry

end PhpTypes
