import PhpTypes.Proofs.TypeExpr.Meaning

/-!
# The grammar of annotations

`Denotes` gives the rules by which an annotation denotes a type. Each rule looks at the text without
its outer blanks and says what the text is made of; which layer comes next is decided by the end of
the text alone. `denotes_iff` shows that the rules give every text exactly one type, the one that
`trimmedType` computes, although resolving peels all layers first and wraps them afterwards.
-/

namespace PhpTypes.TypeExpr

variable {scope : Option Scope} {fullyQualified : Bool}

/-! ## The rules -/

/-- The text ends with an empty pair of brackets. -/
def EndsInBrackets (text : List Char) : Prop :=
  ['[', ']'] <:+ text

instance (text : List Char) : Decidable (EndsInBrackets text) :=
  inferInstanceAs (Decidable (['[', ']'] <:+ text))

/-- The text starts with `array[` in some letter case. -/
def StartsAsArray (text : List Char) : Prop :=
  ∃ opening rest, text = opening ++ rest ∧ Text.foldCase opening = "array[".toList

/-- The type that an annotation denotes. -/
inductive Denotes (scope : Option Scope) (fullyQualified : Bool) : List Char → PhpType → Prop
  | blank {text : List Char} (h : Text.trim text = []) : Denotes scope fullyQualified text .void
  /-- `T[]` denotes the arrays of what `T` denotes. -/
  | brackets {text element : List Char} {t : PhpType}
      (h : Text.trim text = element ++ ['[', ']'])
      (helement : Denotes scope fullyQualified element t) :
      Denotes scope fullyQualified text (.arrayOf t)
  /-- `array[T]` denotes the arrays of what `T` denotes. -/
  | wrapped {text opening element : List Char} {t : PhpType}
      (h : Text.trim text = opening ++ element ++ [']'])
      (hopening : Text.foldCase opening = "array[".toList)
      (hbrackets : ¬ EndsInBrackets (Text.trim text))
      (helement : Denotes scope fullyQualified element t) :
      Denotes scope fullyQualified text (.arrayOf t)
  /-- A closing bracket that belongs to no layer makes the text unreadable. -/
  | unreadable {text : List Char} (hend : [']'] <:+ Text.trim text)
      (hbrackets : ¬ EndsInBrackets (Text.trim text))
      (hstart : ¬ StartsAsArray (Text.trim text)) :
      Denotes scope fullyQualified text .void
  | word {text : List Char} {keyword : Keyword} (hend : ¬ [']'] <:+ Text.trim text)
      (hlookup : Keyword.lookup? (.ofList (Text.trim text)) = some keyword) :
      Denotes scope fullyQualified text keyword.mask.kindType
  | noName {text : List Char} (hend : ¬ [']'] <:+ Text.trim text)
      (hlookup : Keyword.lookup? (.ofList (Text.trim text)) = none)
      (hname : isClassName (Text.trim text) = false) :
      Denotes scope fullyQualified text .void
  /-- A name may stand for a bare word of the vocabulary by an import. -/
  | importedWord {text : List Char} {name : QualifiedName} {keyword : Keyword}
      (hend : ¬ [']'] <:+ Text.trim text)
      (hlookup : Keyword.lookup? (.ofList (Text.trim text)) = none)
      (hname : isClassName (Text.trim text) = true)
      (hresolve : resolveName scope (.ofList (Text.trim text)) fullyQualified = name)
      (hsimple : name.isSimple = true) (hkeyword : Keyword.lookup? name.name = some keyword) :
      Denotes scope fullyQualified text keyword.mask.kindType
  /-- Any other name denotes its class, in lower case, or `null`. -/
  | named {text : List Char} {name : QualifiedName} (hend : ¬ [']'] <:+ Text.trim text)
      (hlookup : Keyword.lookup? (.ofList (Text.trim text)) = none)
      (hname : isClassName (Text.trim text) = true)
      (hresolve : resolveName scope (.ofList (Text.trim text)) fullyQualified = name)
      (hword : name.isPrimitive = false) :
      Denotes scope fullyQualified text (.of (.single .null) {name.toText.foldCase} ∅)

/-! ## Taking off a layer -/

/-- An empty pair of brackets at the end is taken off first. -/
theorem unwrap?_of_endsInBrackets (element : List Char) :
    unwrap? (element ++ ['[', ']']) = some element := by
  rw [unwrap?, Text.isSuffixOf?_append]

/-- A text that does not end with an empty pair of brackets can only have a layer `array[`. -/
theorem unwrap?_of_not_endsInBrackets {text : List Char} (h : ¬ EndsInBrackets text) :
    unwrap? text = bracketed? text := by
  have hnone : ['[', ']'].isSuffixOf? text = none := by
    rw [Option.eq_none_iff_forall_ne_some]
    intro element helement
    exact h ⟨element, Text.append_of_isSuffixOf? helement⟩
  rw [unwrap?, hnone]

/-- Every spelling of `array[` has the same length. -/
theorem length_of_foldCase_eq {opening : List Char}
    (h : Text.foldCase opening = "array[".toList) : opening.length = arrayOpening.length := by
  rw [← Text.length_foldCase opening, h]
  rfl

/-- The element behind any spelling of `array[` is found. -/
theorem bracketed?_of_opening {opening element : List Char}
    (h : Text.foldCase opening = "array[".toList) :
    bracketed? (opening ++ element ++ [']']) = some element := by
  have hlen := length_of_foldCase_eq h
  have hfold : Text.foldCase arrayOpening = arrayOpening := by decide
  have hsame : Text.sameFolded opening arrayOpening = true := by
    rw [Text.sameFolded_iff, h, hfold]
    rfl
  rw [bracketed?, List.append_assoc, ← hlen, List.take_left, if_pos hsame, List.drop_left,
    List.dropLast_concat]

/-- A text that does not start with `array[` has no layer of that form. -/
theorem bracketed?_of_not_startsAsArray {text : List Char} (h : ¬ StartsAsArray text) :
    bracketed? text = none := by
  rw [bracketed?, if_neg]
  intro hsame
  have hfold : Text.foldCase arrayOpening = "array[".toList := by decide
  rw [Text.sameFolded_iff, hfold] at hsame
  exact h ⟨_, _, (List.take_append_drop _ text).symm, hsame⟩

/-- A text of the second form consists of `array[`, its element and a closing bracket. -/
theorem exists_wrapped_of_startsAsArray {text : List Char} (hstart : StartsAsArray text)
    (hend : [']'] <:+ text) :
    ∃ opening element, text = opening ++ element ++ [']'] ∧
      Text.foldCase opening = "array[".toList := by
  obtain ⟨opening, rest, rfl, hopening⟩ := hstart
  have hne : rest ≠ [] := by
    rintro rfl
    -- The opening ends in another bracket.
    obtain ⟨before, hbefore⟩ := hend
    rw [List.append_nil] at hbefore
    rw [← hbefore, Text.foldCase_append] at hopening
    have hlast := congrArg List.getLast? hopening
    rw [show Text.foldCase [']'] = [']'] by decide, List.getLast?_concat] at hlast
    exact absurd hlast (by decide)
  obtain ⟨element, last, rfl⟩ : ∃ element last, rest = element ++ [last] :=
    ⟨_, _, (List.dropLast_append_getLast hne).symm⟩
  obtain ⟨before, hbefore⟩ := hend
  rw [← List.append_assoc] at hbefore
  obtain ⟨-, hlast⟩ := List.append_inj' hbefore rfl
  refine ⟨opening, element, ?_, hopening⟩
  rw [← hlast, List.append_assoc]

/-- The last character tells whether a text ends with a closing bracket. -/
theorem getLast?_eq_iff {text : List Char} : text.getLast? = some ']' ↔ [']'] <:+ text := by
  rw [List.getLast?_eq_some_iff]
  exact exists_congr fun before => eq_comm

/-! ## One type for each text -/

/-- Under a layer stands the type of the trimmed element. -/
theorem trimmedType_of_unwrap? {text element : List Char} (hend : [']'] <:+ text)
    (h : unwrap? text = some element) : trimmedType scope fullyQualified text =
      .arrayOf (trimmedType scope fullyQualified (Text.trim element)) := by
  rw [trimmedType, dif_pos (getLast?_eq_iff.mpr hend)]
  split
  · next found hfound => rw [Option.some.inj (hfound.symm.trans h)]
  · next hnone => simp [h] at hnone

/-- A closing bracket that belongs to neither form makes the text `void`. -/
theorem trimmedType_of_unwrap?_eq_none {text : List Char} (hend : [']'] <:+ text)
    (h : unwrap? text = none) : trimmedType scope fullyQualified text = .void := by
  rw [trimmedType, dif_pos (getLast?_eq_iff.mpr hend)]
  split
  · next found hfound => simp [h] at hfound
  · rfl

/-- A text without a closing bracket at its end has no array layer. -/
theorem trimmedType_of_not_end {text : List Char} (hend : ¬ [']'] <:+ text) :
    trimmedType scope fullyQualified text = coreType scope fullyQualified (.ofList text) := by
  rw [trimmedType, dif_neg (fun h => hend (getLast?_eq_iff.mp h))]

/-- A word of the vocabulary denotes its type. -/
theorem coreType_of_lookup? {text : String} {keyword : Keyword}
    (hlookup : Keyword.lookup? text = some keyword) :
    coreType scope fullyQualified text = keyword.mask.kindType := by
  have hne : text.isEmpty = false := by
    by_contra hempty
    rw [Bool.not_eq_false, String.isEmpty_iff] at hempty
    have hnone : Keyword.lookup? "" = none := by decide
    rw [hempty, hnone] at hlookup
    cases hlookup
  simp [coreType, hne, hlookup]

/-- Any other text that is no class name denotes `void`. -/
theorem coreType_of_noName {text : String} (hlookup : Keyword.lookup? text = none)
    (hname : isClassName text.toList = false) : coreType scope fullyQualified text = .void := by
  simp [coreType, hlookup, hname]

/-- A class name denotes the class that it is resolved to, together with `null`; if it is resolved
to a bare word of the vocabulary, it denotes the type of that word. -/
theorem coreType_of_name {text : String} (hlookup : Keyword.lookup? text = none)
    (hname : isClassName text.toList = true) : coreType scope fullyQualified text =
      if (resolveName scope text fullyQualified).isPrimitive then
        (Keyword.maskOf (resolveName scope text fullyQualified).name).kindType
      else nullableClass (resolveName scope text fullyQualified) := by
  have hne : text.isEmpty = false := by
    by_contra hempty
    rw [Bool.not_eq_false, String.isEmpty_iff] at hempty
    subst hempty
    exact absurd hname (by decide)
  simp [coreType, hne, hlookup, hname]

/-- The rules give no other type than the computed one. -/
theorem Denotes.eq_trimmedType {text : List Char} {t : PhpType}
    (h : Denotes scope fullyQualified text t) :
    trimmedType scope fullyQualified (Text.trim text) = t := by
  induction h with
  | blank h =>
    rw [h, trimmedType_of_not_end (by simp)]
    rfl
  | @brackets text element t h _ ih =>
    have hend : [']'] <:+ element ++ ['[', ']'] := ⟨element ++ ['['], List.append_assoc _ _ _⟩
    rw [h, trimmedType_of_unwrap? hend (unwrap?_of_endsInBrackets element), ih]
  | wrapped h hopening hbrackets _ ih =>
    have hunwrap := unwrap?_of_not_endsInBrackets hbrackets
    rw [h] at hunwrap ⊢
    rw [bracketed?_of_opening hopening] at hunwrap
    rw [trimmedType_of_unwrap? (List.suffix_append _ _) hunwrap, ih]
  | unreadable hend hbrackets hstart =>
    refine trimmedType_of_unwrap?_eq_none hend ?_
    rw [unwrap?_of_not_endsInBrackets hbrackets, bracketed?_of_not_startsAsArray hstart]
  | word hend hlookup => rw [trimmedType_of_not_end hend, coreType_of_lookup? hlookup]
  | noName hend hlookup hname =>
    rw [trimmedType_of_not_end hend, coreType_of_noName hlookup (by rwa [String.toList_ofList])]
  | @importedWord text name keyword hend hlookup hname hresolve hsimple hkeyword =>
    have hprimitive : name.isPrimitive = true := by
      rw [QualifiedName.isPrimitive, hsimple, Keyword.isKnown, hkeyword]
      rfl
    rw [trimmedType_of_not_end hend, coreType_of_name hlookup (by rwa [String.toList_ofList]),
      hresolve, if_pos hprimitive, Keyword.maskOf, hkeyword]
    rfl
  | named hend hlookup hname hresolve hword =>
    rw [trimmedType_of_not_end hend, coreType_of_name hlookup (by rwa [String.toList_ofList]),
      hresolve, if_neg (by rw [hword]; exact Bool.false_ne_true)]
    rfl

/-- Some rule applies to a text without array layers. -/
private theorem denotes_coreType {text : List Char} (hend : ¬ [']'] <:+ Text.trim text) :
    Denotes scope fullyQualified text
      (coreType scope fullyQualified (.ofList (Text.trim text))) := by
  cases hlookup : Keyword.lookup? (.ofList (Text.trim text)) with
  | some keyword =>
    rw [coreType_of_lookup? hlookup]
    exact .word hend hlookup
  | none =>
    cases hname : isClassName (Text.trim text) with
    | false =>
      rw [coreType_of_noName hlookup (by rwa [String.toList_ofList])]
      exact .noName hend hlookup hname
    | true =>
      rw [coreType_of_name hlookup (by rwa [String.toList_ofList])]
      split
      · next hprimitive =>
        rw [QualifiedName.isPrimitive, Bool.and_eq_true, Keyword.isKnown] at hprimitive
        obtain ⟨hsimple, hknown⟩ := hprimitive
        obtain ⟨keyword, hkeyword⟩ := Option.isSome_iff_exists.mp hknown
        rw [Keyword.maskOf, hkeyword]
        exact .importedWord hend hlookup hname rfl hsimple hkeyword
      · next hprimitive => exact .named hend hlookup hname rfl (by simpa using hprimitive)

/-- Some rule applies to every text. The induction is on the length of the text. -/
theorem denotes_trimmedType (text : List Char) :
    Denotes scope fullyQualified text (trimmedType scope fullyQualified (Text.trim text)) := by
  induction hlen : text.length using Nat.strong_induction_on generalizing text with
  | _ n ih =>
    by_cases hend : [']'] <:+ Text.trim text
    · -- The induction covers the element under any layer.
      have hshorter {element : List Char} (h : unwrap? (Text.trim text) = some element) :
          Denotes scope fullyQualified element
            (trimmedType scope fullyQualified (Text.trim element)) := by
        have hne : Text.trim text ≠ [] := by
          rintro hnil
          simp [hnil] at hend
        have hlt := length_lt_of_unwrap? hne h
        have hle := Text.length_trim_le text
        exact ih element.length (by omega) element rfl
      -- The two forms of a layer are tried in the order in which they are taken off.
      by_cases hbrackets : EndsInBrackets (Text.trim text)
      · obtain ⟨element, helement⟩ := hbrackets
        have hunwrap : unwrap? (Text.trim text) = some element := by
          rw [← helement, unwrap?_of_endsInBrackets]
        rw [trimmedType_of_unwrap? hend hunwrap]
        exact .brackets helement.symm (hshorter hunwrap)
      · have hunwrap := unwrap?_of_not_endsInBrackets hbrackets
        by_cases hstart : StartsAsArray (Text.trim text)
        · obtain ⟨opening, element, htext, hopening⟩ :=
            exists_wrapped_of_startsAsArray hstart hend
          have hbracketed : bracketed? (Text.trim text) = some element := by
            rw [htext, bracketed?_of_opening hopening]
          rw [hbracketed] at hunwrap
          rw [trimmedType_of_unwrap? hend hunwrap]
          exact .wrapped htext hopening hbrackets (hshorter hunwrap)
        · rw [bracketed?_of_not_startsAsArray hstart] at hunwrap
          rw [trimmedType_of_unwrap?_eq_none hend hunwrap]
          exact .unreadable hend hbrackets hstart
    · rw [trimmedType_of_not_end hend]
      exact denotes_coreType hend

/-- **The rules give every text exactly one type.** -/
theorem denotes_iff {text : List Char} {t : PhpType} : Denotes scope fullyQualified text t ↔
    trimmedType scope fullyQualified (Text.trim text) = t := by
  constructor
  · exact Denotes.eq_trimmedType
  · rintro rfl
    exact denotes_trimmedType text

end PhpTypes.TypeExpr
