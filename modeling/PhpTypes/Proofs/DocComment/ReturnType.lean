import PhpTypes.DocComment.Basic
import PhpTypes.Proofs.TypeExpr.Balance

/-!
# The documented type of a result

The result of a routine is documented by the first tag `@return`, in any letter case, and there by
the type in front of its body (`ReturnsType`). A type in front of a text ends at the first blank
outside of all brackets; blanks inside brackets belong to it (`LeadingType`).

If the body starts with a blank, the type in front of it is empty and nothing is documented, even if
there is another tag `@return` (`returnType?_eq_some_iff`).
-/

namespace PhpTypes

namespace TypeExpr

variable {d : Int} {c : Char} {type text : List Char}

/-! ## The type in front of a text -/

/-- The type stands in front of a text that begins at the given depth: all of its blanks are inside
brackets, and it ends with the text or at a blank that is not. -/
structure LeadingTypeFrom (d : Int) (type text : List Char) : Prop where
  blanks : ∀ before c after, type = before ++ c :: after → Text.isBlank c = true →
    0 < d + depth before
  ends : ∃ rest, text = type ++ rest ∧
    ∀ c ∈ rest.head?, Text.isBlank c = true ∧ d + depth type ≤ 0

/-- The type stands in front of the text. -/
def LeadingType (type text : List Char) : Prop :=
  LeadingTypeFrom 0 type text

/-- In front of nothing stands the empty type. -/
theorem leadingTypeFrom_nil : LeadingTypeFrom d type [] ↔ type = [] := by
  constructor
  · rintro ⟨-, rest, hrest, -⟩
    exact (List.append_eq_nil_iff.mp hrest.symm).1
  · rintro rfl
    exact ⟨fun before c after h => by simp at h, [], rfl, fun c hc => by simp at hc⟩

/-- Only a blank outside of brackets ends a type before it has begun. -/
theorem leadingTypeFrom_nil_cons :
    LeadingTypeFrom d [] (c :: text) ↔ Text.isBlank c = true ∧ d ≤ 0 := by
  constructor
  · rintro ⟨-, rest, rfl, hends⟩
    simpa using hends c rfl
  · intro h
    refine ⟨fun before c after h => by simp at h, c :: text, rfl, fun e he => ?_⟩
    obtain rfl := Option.some.inj he
    simpa using h

/-- A character belongs to the type unless it is a blank outside of brackets. -/
theorem leadingTypeFrom_cons : LeadingTypeFrom d (c :: type) (c :: text) ↔
    ¬ (Text.isBlank c = true ∧ d ≤ 0) ∧ LeadingTypeFrom (depthAfter d c) type text := by
  constructor
  · rintro ⟨hblanks, rest, hrest, hends⟩
    refine ⟨fun hc => ?_, fun before e after h hblank => ?_, rest, (List.cons.inj hrest).2, ?_⟩
    · have hdepth := hblanks [] c type rfl hc.1
      rw [depth_nil, Int.add_zero] at hdepth
      omega
    · rw [depthAfter_add_depth]
      exact hblanks (c :: before) e after (congrArg (c :: ·) h) hblank
    · rwa [depthAfter_add_depth]
  · rintro ⟨hc, hblanks, rest, hrest, hends⟩
    refine ⟨fun before e after h hblank => ?_, rest, congrArg (c :: ·) hrest, ?_⟩
    · rcases List.cons_eq_append_iff.mp h with ⟨rfl, hfirst⟩ | ⟨before, rfl, htype⟩
      · obtain rfl := (List.cons.inj hfirst).1
        rw [depth_nil, Int.add_zero]
        exact Int.not_le.mp fun hd => hc ⟨hblank, hd⟩
      · rw [← depthAfter_add_depth]
        exact hblanks before e after htype hblank
    · rwa [← depthAfter_add_depth]

/-- The type that is cut off is the one in front of the text. -/
theorem cutType_fst_eq_iff : (cutType d text).1 = type ↔ LeadingTypeFrom d type text := by
  induction text generalizing d type with
  | nil => rw [leadingTypeFrom_nil, cutType, eq_comm]
  | cons c rest ih =>
    have hends : (Text.isBlank c && decide (d ≤ 0)) = true ↔ Text.isBlank c = true ∧ d ≤ 0 := by
      simp
    rw [cutType]
    -- A blank outside of brackets ends the type, and every other character belongs to it.
    by_cases hc : Text.isBlank c = true ∧ d ≤ 0
    · rw [if_pos (hends.mpr hc)]
      cases type with
      | nil => exact iff_of_true rfl (leadingTypeFrom_nil_cons.mpr hc)
      | cons e type =>
        refine iff_of_false (by simp) fun h => ?_
        obtain ⟨tail, htail, -⟩ := h.ends
        obtain rfl := (List.cons.inj htail).1
        exact (leadingTypeFrom_cons.mp h).1 hc
    · rw [if_neg (mt hends.mp hc)]
      dsimp only
      cases type with
      | nil => exact iff_of_false (by simp) fun h => hc (leadingTypeFrom_nil_cons.mp h)
      | cons e type =>
        constructor
        · intro h
          obtain ⟨rfl, htype⟩ := List.cons.inj h
          exact leadingTypeFrom_cons.mpr ⟨hc, ih.mp htype⟩
        · intro h
          obtain ⟨tail, htail, -⟩ := h.ends
          obtain rfl := (List.cons.inj htail).1
          rw [ih.mpr (leadingTypeFrom_cons.mp h).2]

end TypeExpr

namespace DocTag

/-- The tags other than `@param` are kept as they are. -/
theorem other?_eq_some_iff {t : DocTag} {tag : OtherTag} :
    t.other? = some tag ↔ t = .other tag := by
  cases t <;> simp [other?]

end DocTag

namespace DocComment

variable {doc : DocComment} {name : String} {tag : OtherTag} {type : String}

/-! ## The tag of the result -/

/-- The tag is the first one with the name, in any letter case, among the tags other than
`@param`. -/
def FirstTag (doc : DocComment) (name : String) (tag : OtherTag) : Prop :=
  ∃ before after, doc.tags = before ++ .other tag :: after ∧
    tag.name.foldCase = name.foldCase ∧
    ∀ earlier, DocTag.other earlier ∈ before → earlier.name.foldCase ≠ name.foldCase

/-- Looking for a tag finds the first one of that name. -/
theorem tag?_eq_some_iff : doc.tag? name = some tag ↔ doc.FirstTag name tag := by
  rw [tag?, List.find?_filterMap, Option.bind_eq_some_iff]
  constructor
  · rintro ⟨found, hfound, hother⟩
    obtain ⟨hname, before, after, htags, hbefore⟩ := List.find?_eq_some_iff_append.mp hfound
    obtain rfl : found = .other tag := DocTag.other?_eq_some_iff.mp hother
    refine ⟨before, after, htags, by simpa [DocTag.other?, String.sameFolded] using hname,
      fun earlier hearlier => ?_⟩
    simpa [DocTag.other?, String.sameFolded] using hbefore _ hearlier
  · rintro ⟨before, after, htags, hname, hbefore⟩
    refine ⟨.other tag, List.find?_eq_some_iff_append.mpr ⟨?_, before, after, htags, ?_⟩, rfl⟩
    · simpa [DocTag.other?, String.sameFolded] using hname
    · rintro (earlier | earlier) hearlier
      · rfl
      · simpa [DocTag.other?, String.sameFolded] using hbefore earlier hearlier

/-- The first tag `@return` begins with the type. -/
def ReturnsType (doc : DocComment) (type : String) : Prop :=
  ∃ tag, doc.FirstTag "return" tag ∧ type ≠ "" ∧
    TypeExpr.LeadingType type.toList tag.body.toList

/-- The type of the result is the one that the first tag `@return` begins with. -/
theorem returnType?_eq_some_iff : doc.returnType? = some type ↔ doc.ReturnsType type := by
  constructor
  · intro h
    obtain ⟨tag, htag, hbody⟩ := Option.bind_eq_some_iff.mp h
    refine ⟨tag, tag?_eq_some_iff.mp htag, ?_⟩
    split at hbody
    · cases hbody
    · next hne =>
      obtain rfl := Option.some.inj hbody
      rw [String.toList_ofList]
      exact ⟨fun hempty => hne (String.ofList_eq_empty_iff.mp hempty),
        TypeExpr.cutType_fst_eq_iff.mp rfl⟩
  · rintro ⟨tag, htag, hne, htype⟩
    refine Option.bind_eq_some_iff.mpr ⟨tag, tag?_eq_some_iff.mpr htag, ?_⟩
    have hcut : (TypeExpr.firstType tag.body.toList).1 = type.toList :=
      TypeExpr.cutType_fst_eq_iff.mpr htype
    rw [hcut]
    split
    · next hempty => exact absurd (String.toList_eq_nil_iff.mp hempty) hne
    · rw [String.ofList_toList]

end DocComment

end PhpTypes
