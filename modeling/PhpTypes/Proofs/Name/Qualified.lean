import PhpTypes.Name.Scope

/-!
# Texts of qualified names

Every name that resolution gives was read from some text (`exists_resolveName_eq_parse`). The
segments of such a name are not empty and hold no backslash, so its text never starts with one.
-/

namespace PhpTypes

namespace Text

/-- No separator is left in what stands between separators. -/
theorem not_mem_of_mem_splitOn {sep : Char} {text piece : List Char}
    (h : piece ∈ text.splitOn sep) : sep ∉ piece := by
  induction text generalizing piece with
  | nil =>
    rw [List.splitOn_nil, List.mem_singleton] at h
    rw [h]
    exact List.not_mem_nil
  | cons c rest ih =>
    rw [List.splitOn_cons_eq_if_modifyHead] at h
    split at h
    · rcases List.mem_cons.mp h with rfl | h
      · exact List.not_mem_nil
      · exact ih h
    · next hc =>
      generalize hpieces : rest.splitOn sep = pieces at h ih
      cases pieces with
      | nil => cases h
      | cons first others =>
        rw [List.modifyHead_cons] at h
        rcases List.mem_cons.mp h with rfl | h
        · intro hmem
          rcases List.mem_cons.mp hmem with rfl | hmem
          · exact hc (beq_self_eq_true sep)
          · exact ih List.mem_cons_self hmem
        · exact ih (List.mem_cons_of_mem _ h)

/-- No separator is left in the pieces of a text. -/
theorem not_mem_of_mem_pieces {sep : Char} {text piece : List Char}
    (h : piece ∈ pieces sep text) : sep ∉ piece :=
  not_mem_of_mem_splitOn (List.mem_filter.mp h).1

end Text

namespace QualifiedName

/-- The text is not empty and holds no backslash. -/
def IsPiece (segment : String) : Prop :=
  segment.toList ≠ [] ∧ '\\' ∉ segment.toList

/-- The pieces between backslashes are not empty and hold no backslash. -/
theorem isPiece_of_mem_pieces {text : List Char} {segment : String}
    (h : segment ∈ (Text.pieces '\\' text).map String.ofList) : IsPiece segment := by
  obtain ⟨piece, hpiece, rfl⟩ := List.mem_map.mp h
  rw [IsPiece, String.toList_ofList]
  exact ⟨Text.ne_nil_of_mem_pieces hpiece, Text.not_mem_of_mem_pieces hpiece⟩

/-- A name with segments has just these segments. -/
theorem segments_ofSegments {segments : List String} (h : segments ≠ []) :
    (ofSegments segments).segments = segments := by
  show segments.dropLast ++ [segments.getLast?.getD ""] = segments
  rw [List.getLast?_eq_some_getLast h, Option.getD_some, List.dropLast_concat_getLast]

/-- The text of a name that was read does not start with a backslash. -/
theorem head?_toText_parse (text : String) : (parse text).toText.toList.head? ≠ some '\\' := by
  rw [toText, parse]
  cases hsegments : segmentsOf text with
  | nil =>
    have hname : (ofSegments []).segments = [""] := rfl
    rw [hname, String.intercalate_singleton]
    exact fun h => by cases h
  | cons first rest =>
    have hfirstmem : first ∈ segmentsOf text := by
      rw [hsegments]
      exact List.mem_cons_self
    obtain ⟨hne, hnot⟩ := isPiece_of_mem_pieces hfirstmem
    rw [segments_ofSegments (List.cons_ne_nil _ _), String.toList_intercalate, List.map_cons]
    cases hfirst : first.toList with
    | nil => exact absurd hfirst hne
    | cons c cs =>
      rw [List.intercalate_cons_cons_left, List.head?_cons]
      intro hc
      rw [hfirst, Option.some.inj hc] at hnot
      exact hnot List.mem_cons_self

end QualifiedName

namespace Scope

/-- A name behind a namespace was read from the two with a backslash between. -/
theorem exists_prepend_eq_parse (scope : Scope) (text : String) :
    ∃ read, scope.prepend text = .parse read := by
  unfold prepend
  split <;> exact ⟨_, rfl⟩

/-- A name that a scope has been applied to was read from some text. -/
theorem exists_apply_eq_parse (scope : Scope) (q : QualifiedName) :
    ∃ read, scope.apply q = .parse read := by
  simp only [apply]
  split
  · split <;> exact ⟨_, rfl⟩
  · split <;> exact exists_prepend_eq_parse scope _

end Scope

/-- A resolved name was read from some text. -/
theorem exists_resolveName_eq_parse (scope : Option Scope) (raw : String) (fullyQualified : Bool) :
    ∃ read, resolveName scope raw fullyQualified = .parse read := by
  simp only [resolveName]
  split
  · exact ⟨raw, rfl⟩
  · split
    · exact ⟨raw, rfl⟩
    · cases scope with
      | some scope => exact scope.exists_apply_eq_parse _
      | none => exact ⟨raw, rfl⟩

/-- The text of a resolved name does not start with a backslash. -/
theorem head?_toText_resolveName (scope : Option Scope) (raw : String) (fullyQualified : Bool) :
    (resolveName scope raw fullyQualified).toText.toList.head? ≠ some '\\' := by
  obtain ⟨read, hread⟩ := exists_resolveName_eq_parse scope raw fullyQualified
  rw [hread]
  exact QualifiedName.head?_toText_parse read

end PhpTypes
