import PhpTypes.Proofs.TypeExpr.Naming

/-!
# Class names that lose a blank

In the global namespace, the word `namespace` in front of a name is dropped, and trimming what
follows it drops blanks beyond ASCII, though they count as characters of a class name. A digit that
comes first then makes the result no class name (`BaresDigit`). Under a scope of class names without
blanks nothing else does: `isClassName_resolveName_iff`.
-/

namespace PhpTypes

open QualifiedName (piecesOf IsPiece)

/-! ## What is left of the segments -/

/-- The segments of a name that starts with `next`, without the blanks at its start. -/
def baredPath (next : String) (rest : List String) : List String :=
  (Text.pieces '\\' (Text.trimStart next.toList)).map String.ofList ++ rest

variable {next : String} {rest : List String}

/-- What is left of pieces are pieces. -/
theorem isPiece_of_mem_baredPath (h : ∀ piece ∈ next :: rest, IsPiece piece) :
    ∀ piece ∈ baredPath next rest, IsPiece piece := by
  refine List.forall_mem_append.mpr ⟨fun piece hpiece => ?_, fun piece hpiece => ?_⟩
  · exact QualifiedName.isPiece_of_mem_pieces hpiece
  · exact h piece (List.mem_cons_of_mem next hpiece)

/-- A joined name is read as what is left of its segments. -/
theorem segmentsOf_intercalate (hpieces : ∀ piece ∈ next :: rest, IsPiece piece)
    (hlast : ∀ last, (next :: rest).getLast? = some last → Text.NoBlankLast last.toList) :
    QualifiedName.segmentsOf ("\\".intercalate (next :: rest)) = baredPath next rest := by
  have hend : Text.trimEnd ("\\".intercalate (next :: rest)).toList =
      ("\\".intercalate (next :: rest)).toList :=
    Text.dropEndWhile_of_getLast? (QualifiedName.noBlankLast_intercalate hpieces hlast)
  have hrest : ∀ part ∈ rest.map String.toList, part ≠ [] ∧ '\\' ∉ part :=
    List.forall_mem_map.mpr fun piece hpiece => hpieces piece (List.mem_cons_of_mem next hpiece)
  rw [QualifiedName.segmentsOf, Text.trim, hend, QualifiedName.toList_intercalate_backslash,
    List.map_cons, Text.pieces_trimStart_join (by decide) hrest, List.map_append, List.map_map,
    baredPath]
  simp [Function.comp_def]

/-- The first piece is left without its blanks, or not at all if it has nothing else. -/
theorem pieces_trimStart (hnext : IsPiece next) :
    Text.pieces '\\' (Text.trimStart next.toList) =
      if Text.trimStart next.toList = [] then [] else [Text.trimStart next.toList] := by
  split
  · next hnil =>
    rw [hnil]
    rfl
  · next hne => exact Text.pieces_of_not_mem hne fun hmem => hnext.2 (Text.mem_of_mem_trimStart hmem)

/-- Something is left if the last segment does not end in a blank. -/
theorem baredPath_ne_nil (hnext : IsPiece next)
    (hlast : ∀ last, (next :: rest).getLast? = some last → Text.NoBlankLast last.toList) :
    baredPath next rest ≠ [] := by
  cases rest with
  | cons other rest => exact List.append_ne_nil_of_right_ne_nil _ (List.cons_ne_nil other rest)
  | nil =>
    have hne := Text.trimStart_ne_nil hnext.1 (hlast next rfl)
    rw [baredPath, pieces_trimStart hnext, if_neg hne]
    exact List.cons_ne_nil _ _

namespace TypeExpr

/-! ## Digits in front -/

/-- A digit comes first once the blanks are gone. -/
def DigitBehindBlanks (segment : String) : Prop :=
  ∃ d, (Text.trimStart segment.toList).head? = some d ∧ d.isDigit = true

/-- The name is put together from a text that starts with a digit. -/
def BaresDigit (scope : Option Scope) (fullyQualified : Bool) (raw : String) : Prop :=
  fullyQualified = false ∧ raw.toList.head? ≠ some '\\' ∧
    ∃ next rest, DropsNamespace scope raw (next :: rest) ∧ DigitBehindBlanks next

/-- A character of a class name may start a segment unless it is a digit. -/
theorem isNameStart_iff {c : Char} (h : isNameChar c = true) :
    isNameStart c = true ↔ c.isDigit = false := by
  constructor
  · intro hstart
    rw [Bool.eq_false_iff]
    intro hdigit
    have hascii : c.toNat < 128 :=
      Nat.lt_of_le_of_lt (Char.isDigit_iff_toNat.mp hdigit).2 (by decide)
    have hnot := forall_ascii (P := fun c => c.isDigit = true → isNameStart c = false) (by decide)
      hascii hdigit
    rw [hstart] at hnot
    cases hnot
  · intro hdigit
    simpa [isNameChar, isNameStart, Char.isAlphanum, hdigit] using h

/-- A text of name characters is a segment unless a digit comes first. -/
theorem isSegment_iff {text : List Char} (hne : text ≠ [])
    (h : ∀ c ∈ text, isNameChar c = true) :
    isSegment text = true ↔ ∀ c, text.head? = some c → c.isDigit = false := by
  obtain ⟨first, rest, rfl⟩ := List.exists_cons_of_ne_nil hne
  have hrest : rest.all isNameChar = true :=
    List.all_eq_true.mpr fun c hc => h c (List.mem_cons_of_mem first hc)
  rw [isSegment, hrest, Bool.and_true, isNameStart_iff (h first List.mem_cons_self)]
  simp

/-- What is left of a segment is none if and only if it starts with a digit. -/
theorem forall_isSegment_baredPath_iff (hpieces : ∀ piece ∈ next :: rest, IsPiece piece)
    (h : ∀ piece ∈ next :: rest, isSegment piece.toList = true) :
    (∀ piece ∈ baredPath next rest, isSegment piece.toList = true) ↔ ¬ DigitBehindBlanks next := by
  obtain ⟨hnext, hrest⟩ := List.forall_mem_cons.mp h
  have hbared := pieces_trimStart (hpieces next List.mem_cons_self)
  rw [baredPath, hbared, List.forall_mem_append, and_iff_left hrest, List.forall_mem_map]
  split
  · next hnil => simp [DigitBehindBlanks, hnil]
  · next hne =>
    have hchars : ∀ c ∈ Text.trimStart next.toList, isNameChar c = true :=
      fun c hc => isNameChar_of_mem_segment hnext (Text.mem_of_mem_trimStart hc)
    rw [List.forall_mem_singleton, String.toList_ofList, isSegment_iff hne hchars]
    simp [DigitBehindBlanks]

/-- The last segment of a class name does not end in a blank if the name does not. -/
theorem noBlankLast_of_getLast?_piecesOf {raw : String} (hraw : isClassName raw.toList = true)
    (htrim : Text.trim raw.toList = raw.toList) {piece : String}
    (hpiece : (piecesOf raw).getLast? = some piece) : Text.NoBlankLast piece.toList := by
  intro c hc
  refine Text.noBlankLast_of_trim_eq htrim c ?_
  have hbody : (nameBody raw.toList).getLast? = some c := by
    rw [piecesOf_eq_nameSegments hraw, List.getLast?_map, Option.map_eq_some_iff] at hpiece
    obtain ⟨segment, hsegment, rfl⟩ := hpiece
    rw [String.toList_ofList] at hc
    rw [← join_nameSegments]
    exact Text.getLast?_join hsegment hc
  rcases eq_nameBody_or_eq_cons raw.toList with heq | heq
  · rw [heq, hbody]
  · rw [heq, List.getLast?_cons, hbody, Option.getD_some]

end TypeExpr

/-! ## Names that are resolved -/

open TypeExpr

variable {scope : Option Scope} {fullyQualified : Bool} {raw : String}

/-- What follows the dropped word consists of segments and does not end in a blank. -/
theorem DropsNamespace.segments (h : DropsNamespace scope raw (next :: rest))
    (hraw : isClassName raw.toList = true) (htrim : Text.trim raw.toList = raw.toList) :
    (∀ piece ∈ next :: rest, IsPiece piece) ∧
      (∀ piece ∈ next :: rest, isSegment piece.toList = true) ∧
      ∀ last, (next :: rest).getLast? = some last → Text.NoBlankLast last.toList := by
  obtain ⟨s, first, -, -, -, hpieces, -⟩ := h
  have hmem : ∀ piece ∈ next :: rest, piece ∈ piecesOf raw := by
    rw [hpieces]
    exact fun piece hpiece => List.mem_cons_of_mem first hpiece
  refine ⟨fun piece hpiece => QualifiedName.isPiece_of_mem_pieces (hmem piece hpiece),
    fun piece hpiece => isSegment_of_mem_piecesOf hraw piece (hmem piece hpiece),
    fun last hlast => noBlankLast_of_getLast?_piecesOf hraw htrim ?_⟩
  rw [hpieces, List.getLast?_cons_cons, hlast]

/-- Once the word is dropped, the text of the resolved name is what is left of the segments. -/
theorem DropsNamespace.toText_resolveName (h : DropsNamespace scope raw (next :: rest))
    (hraw : isClassName raw.toList = true) (htrim : Text.trim raw.toList = raw.toList)
    (hhead : raw.toList.head? ≠ some '\\') :
    (resolveName scope raw false).toText = "\\".intercalate (baredPath next rest) := by
  obtain ⟨hpieces, -, hends⟩ := h.segments hraw htrim
  have hne := baredPath_ne_nil (hpieces next List.mem_cons_self) hends
  rw [resolveName_of_dropsNamespace htrim hhead h, QualifiedName.parse,
    segmentsOf_intercalate hpieces hends, QualifiedName.toText, QualifiedName.segments_ofSegments hne]

/-- Without the dropped word, a name is a class name unless a digit comes first. -/
theorem DropsNamespace.isClassName_iff (h : DropsNamespace scope raw (next :: rest))
    (hraw : isClassName raw.toList = true) (htrim : Text.trim raw.toList = raw.toList)
    (hhead : raw.toList.head? ≠ some '\\') :
    isClassName (resolveName scope raw false).toText.toList = true ↔ ¬ DigitBehindBlanks next := by
  obtain ⟨hpieces, hsegments, hends⟩ := h.segments hraw htrim
  have hne : (baredPath next rest).map String.toList ≠ [] := by
    rw [Ne, List.map_eq_nil_iff]
    exact baredPath_ne_nil (hpieces next List.mem_cons_self) hends
  have hparts : ∀ part ∈ (baredPath next rest).map String.toList, part ≠ [] ∧ '\\' ∉ part :=
    List.forall_mem_map.mpr (isPiece_of_mem_baredPath hpieces)
  rw [h.toText_resolveName hraw htrim hhead, QualifiedName.toList_intercalate_backslash,
    isClassName_join_iff hne hparts, List.forall_mem_map,
    forall_isSegment_baredPath_iff hpieces hsegments]

namespace TypeExpr

/-- The word is dropped, and a digit behind it is bared, from one name in one way only. -/
theorem baresDigit_iff (hhead : raw.toList.head? ≠ some '\\')
    (h : DropsNamespace scope raw (next :: rest)) :
    BaresDigit scope false raw ↔ DigitBehindBlanks next := by
  refine ⟨?_, fun hdigit => ⟨rfl, hhead, next, rest, h, hdigit⟩⟩
  rintro ⟨-, -, next', rest', ⟨s', first', -, -, -, hpieces', -⟩, hdigit⟩
  obtain ⟨s, first, -, -, -, hpieces, -⟩ := h
  obtain ⟨-, hsame⟩ := List.cons.inj (hpieces.symm.trans hpieces')
  rwa [(List.cons.inj hsame).1]

/-- Blanks are only lost behind a dropped word. -/
theorem keepsBlanks_of_not_dropsNamespace (hraw : isClassName raw.toList = true)
    (htrim : Text.trim raw.toList = raw.toList)
    (hscope : ∀ s ∈ scope, s.AllTexts fun text => IsSpelled text.toList)
    (h : ¬ (fullyQualified = false ∧ raw.toList.head? ≠ some '\\' ∧
      ∃ next rest, DropsNamespace scope raw (next :: rest))) :
    KeepsBlanks scope fullyQualified raw where
  first := Text.noBlankFirst_of_trim_eq htrim
  last := Text.noBlankLast_of_trim_eq htrim
  lastPiece _ hpiece := noBlankLast_of_getLast?_piecesOf hraw htrim hpiece
  texts s hs := (hscope s hs).imp fun _ htext =>
    ⟨.of_forall fun _ hc => htext.not_isBlank hc, .of_forall fun _ hc => htext.not_isBlank hc⟩
  losesNone := by
    rintro hnot hhead ⟨next, rest, hdrops, -⟩
    exact h ⟨hnot, hhead, next, rest, hdrops⟩

/-- **A class name is resolved to a class name exactly if no digit is bared.** -/
theorem isClassName_resolveName_iff (hraw : isClassName raw.toList = true)
    (htrim : Text.trim raw.toList = raw.toList)
    (hscope : ∀ s ∈ scope, s.AllTexts fun text => IsSpelled text.toList) :
    isClassName (resolveName scope raw fullyQualified).toText.toList = true ↔
      ¬ BaresDigit scope fullyQualified raw := by
  by_cases hdrops : fullyQualified = false ∧ raw.toList.head? ≠ some '\\' ∧
      ∃ next rest, DropsNamespace scope raw (next :: rest)
  · obtain ⟨rfl, hhead, next, rest, hdrops⟩ := hdrops
    rw [hdrops.isClassName_iff hraw htrim hhead, baresDigit_iff hhead hdrops]
  · have hblanks := keepsBlanks_of_not_dropsNamespace hraw htrim hscope hdrops
    refine iff_of_true (isClassName_resolveName hblanks hraw (allTexts_isClassName hscope)) ?_
    rintro ⟨hnot, hhead, next, rest, hdrops', -⟩
    exact hdrops ⟨hnot, hhead, next, rest, hdrops'⟩

/-- Something is always left of a class name. -/
theorem toText_resolveName_ne_empty (hraw : isClassName raw.toList = true)
    (htrim : Text.trim raw.toList = raw.toList)
    (hscope : ∀ s ∈ scope, s.AllTexts fun text => IsSpelled text.toList) :
    (resolveName scope raw fullyQualified).toText ≠ "" := by
  intro hempty
  by_cases hbares : BaresDigit scope fullyQualified raw
  · obtain ⟨rfl, hhead, next, rest, hdrops, -⟩ := hbares
    obtain ⟨hpieces, -, hends⟩ := hdrops.segments hraw htrim
    have hread := QualifiedName.piecesOf_intercalate (isPiece_of_mem_baredPath hpieces)
    rw [← hdrops.toText_resolveName hraw htrim hhead, hempty] at hread
    exact baredPath_ne_nil (hpieces next List.mem_cons_self) hends hread.symm
  · have hname := (isClassName_resolveName_iff hraw htrim hscope).mpr hbares
    rw [hempty] at hname
    exact absurd hname (by decide)

end TypeExpr

end PhpTypes
