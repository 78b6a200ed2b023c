import PhpTypes.Proofs.TypeExpr.Alternatives
import PhpTypes.TypeExpr.Meaning

/-!
# Class names

A class name consists of segments with backslashes between them. All its characters are plain, so it
never interferes with the notation around it. Blanks beyond ASCII count as characters of a name.
-/

namespace PhpTypes.TypeExpr

/-! ## Characters -/

/-- What holds of the first 128 characters one by one holds of every character of ASCII. -/
theorem forall_ascii {P : Char → Prop} (h : ∀ n < 128, P (Char.ofNat n)) {c : Char}
    (hc : c.toNat < 128) : P c := by
  have hchar := h c.toNat hc
  rwa [Char.ofNat_toNat] at hchar

/-- What a name may start with it may also contain. -/
theorem isNameChar_of_isNameStart {c : Char} (h : isNameStart c = true) : isNameChar c = true := by
  simp only [isNameStart, isNameChar, Char.isAlphanum, Bool.or_eq_true] at h ⊢
  rcases h with (h | h) | h <;> simp [h]

/-- The characters that structure the text of a union. -/
def specialChars : List Char :=
  ['<', '(', '[', '\x7b', '>', ')', ']', '\x7d', '|']

/-- A character that structures no union is plain. -/
theorem isPlain_of_not_mem_specialChars {c : Char} (h : c ∉ specialChars) : isPlain c = true := by
  simp only [specialChars, List.mem_cons, List.not_mem_nil, or_false, not_or] at h
  simp [isPlain, isOpening, isClosing, h]

/-- The characters of a name structure no union. -/
theorem isPlain_of_isNameChar {c : Char} (h : isNameChar c = true) : isPlain c = true := by
  refine isPlain_of_not_mem_specialChars fun hspecial => ?_
  have hnone : ∀ d ∈ specialChars, isNameChar d = false := by decide
  rw [hnone c hspecial] at h
  cases h

/-! ## Segments -/

/-- Every character of a segment is one that a name may contain. -/
theorem isNameChar_of_mem_segment {segment : List Char} (h : isSegment segment = true) {c : Char}
    (hc : c ∈ segment) : isNameChar c = true := by
  cases segment with
  | nil => cases h
  | cons first rest =>
    rw [isSegment, Bool.and_eq_true] at h
    rcases List.mem_cons.mp hc with rfl | hc
    · exact isNameChar_of_isNameStart h.1
    · exact List.all_eq_true.mp h.2 c hc

/-- A segment is not empty. -/
theorem ne_nil_of_isSegment {segment : List Char} (h : isSegment segment = true) :
    segment ≠ [] := by
  rintro rfl
  cases h

/-! ## Names -/

/-- The text behind a leading backslash. -/
def nameBody (text : List Char) : List Char :=
  Text.dropLead ['\\'] text

/-- Without a leading backslash the whole text is the body of the name. -/
theorem nameBody_of_head?_ne {text : List Char} (h : text.head? ≠ some '\\') :
    nameBody text = text :=
  Text.dropLead_of_head?_ne h

/-- Behind a leading backslash the rest is the body of the name. -/
theorem nameBody_cons (text : List Char) : nameBody ('\\' :: text) = text :=
  Text.dropLead_singleton_cons '\\' text

/-- A text is the body of the name, or that with a backslash in front. -/
theorem eq_nameBody_or_eq_cons (text : List Char) :
    text = nameBody text ∨ text = '\\' :: nameBody text := by
  by_cases h : text.head? = some '\\'
  · cases text with
    | nil => cases h
    | cons c rest =>
      obtain rfl : c = '\\' := by simpa using h
      exact .inr (by rw [nameBody_cons])
  · exact .inl (nameBody_of_head?_ne h).symm

/-- The texts between the backslashes of a name, without a leading one. -/
def nameSegments (text : List Char) : List (List Char) :=
  (nameBody text).splitOn '\\'

/-- Segments with backslashes between them are the body of the name. -/
theorem join_nameSegments (text : List Char) : Text.join '\\' (nameSegments text) = nameBody text :=
  Text.join_splitOn '\\' (nameBody text)

/-- Every text has at least one segment, which may be empty. -/
theorem nameSegments_ne_nil (text : List Char) : nameSegments text ≠ [] :=
  List.splitOn_ne_nil '\\' (nameBody text)

/-- A text is a class name exactly if everything between its backslashes is a segment. -/
theorem isClassName_iff {text : List Char} : isClassName text = true ↔
    ∀ segment ∈ nameSegments text, isSegment segment = true := by
  rw [isClassName, List.all_eq_true]
  rfl

/-- A leading backslash may be put in front of any other class name. -/
theorem isClassName_cons_backslash {text : List Char} (h : text.head? ≠ some '\\') :
    isClassName ('\\' :: text) = isClassName text := by
  have hbody : nameBody ('\\' :: text) = nameBody text := by
    rw [nameBody_cons, nameBody_of_head?_ne h]
  rw [isClassName, isClassName, ← nameBody, ← nameBody, hbody]

/-- A class name consists of backslashes and of characters that names may contain. -/
theorem eq_backslash_or_isNameChar {text : List Char} (h : isClassName text = true) {c : Char}
    (hc : c ∈ text) : c = '\\' ∨ isNameChar c = true := by
  have hbody (hc : c ∈ nameBody text) : c = '\\' ∨ isNameChar c = true := by
    rw [← join_nameSegments] at hc
    rcases Text.mem_join hc with hsep | ⟨segment, hsegment, hc⟩
    · exact .inl hsep
    · exact .inr (isNameChar_of_mem_segment (isClassName_iff.mp h segment hsegment) hc)
  rcases eq_nameBody_or_eq_cons text with heq | heq
  · exact hbody (heq ▸ hc)
  · rw [heq] at hc
    rcases List.mem_cons.mp hc with hsep | hc
    · exact .inl hsep
    · exact hbody hc

/-- Every character of a class name is plain. -/
theorem isPlain_of_mem_className {text : List Char} (h : isClassName text = true) {c : Char}
    (hc : c ∈ text) : isPlain c = true := by
  rcases eq_backslash_or_isNameChar h hc with rfl | hname
  · decide
  · exact isPlain_of_isNameChar hname

/-- A class name does not end in a backslash. -/
theorem exists_getLast?_of_isClassName {text : List Char} (h : isClassName text = true) :
    ∃ c, text.getLast? = some c ∧ isNameChar c = true := by
  have hsegments := isClassName_iff.mp h
  have hne := nameSegments_ne_nil text
  have hsegment := hsegments _ (List.getLast_mem hne)
  obtain ⟨c, hc⟩ : ∃ c, List.getLast? (List.getLast _ hne) = some c :=
    ⟨_, List.getLast?_eq_some_getLast (ne_nil_of_isSegment hsegment)⟩
  have hbody : (nameBody text).getLast? = some c := by
    rw [← join_nameSegments]
    exact Text.getLast?_join (List.getLast?_eq_some_getLast hne) hc
  refine ⟨c, ?_, isNameChar_of_mem_segment hsegment (List.mem_of_getLast? hc)⟩
  rcases eq_nameBody_or_eq_cons text with heq | heq
  · rw [heq, hbody]
  · rw [heq, List.getLast?_cons, hbody, Option.getD_some]

end PhpTypes.TypeExpr
