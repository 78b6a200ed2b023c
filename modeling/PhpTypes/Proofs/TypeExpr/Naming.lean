import PhpTypes.Proofs.Name.Segments
import PhpTypes.Proofs.TypeExpr.ClassName

/-!
# Names that class names are resolved to

Reading a class name as a qualified name and writing it again only drops a leading backslash
(`toText_parse`), provided that no blank is trimmed off its ends. Under a scope whose namespace and
targets are class names, a class name is resolved to a class name, since all its segments are
segments of class names (`isClassName_resolveName`, `isSpelled_resolveName`).

The second statement needs that no blank is lost on the way. A blank beyond ASCII counts as a
character of a class name, but it is trimmed off when a name is put together, and what is left may
start with a digit or be empty.
-/

namespace PhpTypes

namespace TypeExpr

/-! ## Segments of class names -/

/-- No backslash occurs in a segment. -/
theorem not_mem_of_isSegment {segment : List Char} (h : isSegment segment = true) :
    '\\' ∉ segment :=
  fun hmem => absurd (isNameChar_of_mem_segment h hmem) (by decide)

/-- Joined pieces are a class name if and only if they are segments. -/
theorem isClassName_join_iff {parts : List (List Char)} (hne : parts ≠ [])
    (h : ∀ part ∈ parts, part ≠ [] ∧ '\\' ∉ part) :
    isClassName (Text.join '\\' parts) = true ↔ ∀ part ∈ parts, isSegment part = true := by
  have hhead : (Text.join '\\' parts).head? ≠ some '\\' := by
    obtain ⟨first, rest, rfl⟩ := List.exists_cons_of_ne_nil hne
    obtain ⟨hfirst, hsep⟩ := h first List.mem_cons_self
    rw [Text.head?_join hfirst]
    exact fun heq => hsep (List.mem_of_head? heq)
  have hsplit : (Text.join '\\' parts).splitOn '\\' = parts :=
    List.splitOn_intercalate '\\' (fun part hpart => (h part hpart).2) hne
  rw [isClassName_iff, nameSegments, nameBody_of_head?_ne hhead, hsplit]

/-! ## Reading a class name -/

/-- The pieces of a class name are its segments. -/
theorem piecesOf_eq_nameSegments {text : String} (h : isClassName text.toList = true) :
    QualifiedName.piecesOf text = (nameSegments text.toList).map String.ofList := by
  have hfilter : (nameSegments text.toList).filter (fun piece => !piece.isEmpty) =
      nameSegments text.toList := by
    refine List.filter_eq_self.mpr fun segment hsegment => ?_
    have hne := ne_nil_of_isSegment (isClassName_iff.mp h segment hsegment)
    simpa using hne
  rw [QualifiedName.piecesOf, Text.pieces, ← hfilter, nameSegments]
  -- A leading backslash only adds an empty piece.
  rcases eq_nameBody_or_eq_cons text.toList with hbody | hbody
  · rw [← hbody]
  · rw [hbody, nameBody_cons, ← List.nil_append ('\\' :: _), List.splitOn_append_cons_self]
    rfl

/-- A class name has at least one piece. -/
theorem piecesOf_ne_nil {text : String} (h : isClassName text.toList = true) :
    QualifiedName.piecesOf text ≠ [] := by
  rw [piecesOf_eq_nameSegments h, Ne, List.map_eq_nil_iff]
  exact nameSegments_ne_nil _

/-- The pieces of a class name are segments. -/
theorem isSegment_of_mem_piecesOf {text : String} (h : isClassName text.toList = true) :
    ∀ piece ∈ QualifiedName.piecesOf text, isSegment piece.toList = true := by
  rw [piecesOf_eq_nameSegments h, List.forall_mem_map]
  intro segment hsegment
  rw [String.toList_ofList]
  exact isClassName_iff.mp h segment hsegment

/-- A class name is written as it was read, without a leading backslash. -/
theorem toText_parse {text : String} (h : isClassName text.toList = true)
    (htrim : Text.trim text.toList = text.toList) :
    (QualifiedName.parse text).toText = .ofList (nameBody text.toList) := by
  have hsame : ((nameSegments text.toList).map String.ofList).map String.toList =
      nameSegments text.toList := by
    simp [Function.comp_def]
  refine String.toList_inj.mp ?_
  rw [QualifiedName.toText, QualifiedName.parse, QualifiedName.segmentsOf_eq_piecesOf htrim,
    QualifiedName.segments_ofSegments (piecesOf_ne_nil h), piecesOf_eq_nameSegments h,
    String.toList_intercalate, hsame]
  exact (join_nameSegments _).trans String.toList_ofList.symm

/-! ## Names without blanks -/

/-- Whether a character is a blank beyond ASCII. -/
def isWideBlank (c : Char) : Bool :=
  Text.isBlank c && !(decide (c.toNat < 128))

/-- A class name in which no blank occurs. -/
structure IsSpelled (text : List Char) : Prop where
  isClassName : isClassName text = true
  not_wideBlank : ∀ c ∈ text, isWideBlank c = false

/-- Among the characters of names, only blanks beyond ASCII are blank. -/
theorem not_isBlank_of_isNameChar {c : Char} (hname : isNameChar c = true)
    (hwide : isWideBlank c = false) : Text.isBlank c = false := by
  by_cases hascii : c.toNat < 128
  · exact forall_ascii (P := fun c => isNameChar c = true → Text.isBlank c = false) (by decide)
      hascii hname
  · simpa [isWideBlank, hascii] using hwide

/-- No character of a spelled name is blank. -/
theorem IsSpelled.not_isBlank {text : List Char} (h : IsSpelled text) {c : Char} (hc : c ∈ text) :
    Text.isBlank c = false := by
  rcases eq_backslash_or_isNameChar h.isClassName hc with rfl | hname
  · decide
  · exact not_isBlank_of_isNameChar hname (h.not_wideBlank c hc)

/-- Trimming leaves a spelled name alone. -/
theorem IsSpelled.trim_eq {text : List Char} (h : IsSpelled text) : Text.trim text = text :=
  Text.trim_of_ends (fun _ hc => h.not_isBlank (List.mem_of_head? hc))
    fun _ hc => h.not_isBlank (List.mem_of_getLast? hc)

/-- A spelled name is a class name without blanks of any kind. -/
theorem isSpelled_iff {text : List Char} :
    IsSpelled text ↔ isClassName text = true ∧ ∀ c ∈ text, Text.isBlank c = false := by
  constructor
  · exact fun h => ⟨h.isClassName, fun c hc => h.not_isBlank hc⟩
  · rintro ⟨hname, hblank⟩
    exact ⟨hname, fun c hc => by rw [isWideBlank, hblank c hc, Bool.false_and]⟩

instance (text : List Char) : Decidable (IsSpelled text) :=
  decidable_of_iff _ isSpelled_iff.symm

/-- A scope of spelled names is a scope of class names. -/
theorem allTexts_isClassName {scope : Option Scope}
    (h : ∀ s ∈ scope, s.AllTexts fun text => IsSpelled text.toList) :
    ∀ s ∈ scope, s.AllTexts fun text => isClassName text.toList = true :=
  fun s hs => (h s hs).imp fun _ htext => htext.isClassName

end TypeExpr

/-! ## Words and names -/

/-- A text with a backslash is no word of the vocabulary. -/
theorem Keyword.lookup?_eq_none {word : String} (h : '\\' ∈ word.toList) :
    Keyword.lookup? word = none := by
  have hfolded : '\\' ∈ word.foldCase.toList := by
    rw [String.toList_foldCase]
    exact List.mem_map.mpr ⟨'\\', h, by decide⟩
  rw [Keyword.lookup?, List.lookup_eq_none_iff]
  intro entry hentry
  have hnone : ∀ entry ∈ Keyword.table, '\\' ∉ entry.1.toList := by decide
  rw [bne_iff_ne]
  intro heq
  rw [heq] at hfolded
  exact hnone entry hentry hfolded

/-- A bare name is written as it is. -/
theorem QualifiedName.toText_of_isSimple {q : QualifiedName} (h : q.isSimple = true) :
    q.toText = q.name := by
  rw [toText, segments, List.isEmpty_iff.mp h, List.nil_append, String.intercalate_singleton]

/-- The text of a name is a word of the vocabulary exactly if the name is a bare word of it. -/
theorem QualifiedName.lookup?_toText_eq_none_iff {q : QualifiedName} :
    Keyword.lookup? q.toText = none ↔ q.isPrimitive = false := by
  cases hsimple : q.isSimple with
  | true =>
    rw [toText_of_isSimple hsimple, isPrimitive, hsimple, Keyword.isKnown]
    simp
  | false =>
    obtain ⟨first, rest, hspaces⟩ :=
      List.exists_cons_of_ne_nil (List.isEmpty_eq_false_iff.mp hsimple)
    have hsep : '\\' ∈ q.toText.toList := by
      rw [toText, segments, hspaces, String.toList_intercalate]
      cases rest <;> simp [List.intercalate_cons_cons]
    rw [isPrimitive, hsimple]
    simp [Keyword.lookup?_eq_none hsep]

/-! ## Resolving names -/

/-- A name behind a backslash stays as it is. -/
theorem resolveName_of_backslash {raw : String} (h : (Text.trim raw.toList).head? = some '\\')
    (scope : Option Scope) (fullyQualified : Bool) :
    resolveName scope raw fullyQualified = .parse raw := by
  simp [resolveName, h]

namespace TypeExpr

variable {scope : Option Scope} {fullyQualified : Bool} {raw : String}

/-- Under a scope of class names, a class name has a segment when it is resolved. -/
theorem namePath_ne_nil_of_isClassName (hraw : isClassName raw.toList = true)
    (hscope : ∀ s ∈ scope, s.AllTexts fun text => isClassName text.toList = true) :
    namePath scope fullyQualified raw ≠ [] :=
  namePath_ne_nil (piecesOf_ne_nil hraw) fun s hs _ _ htarget =>
    piecesOf_ne_nil ((hscope s hs).of_target? htarget)

/-- The text of a resolved name is made of segments. -/
theorem toText_resolveName (hblanks : KeepsBlanks scope fullyQualified raw)
    (hraw : isClassName raw.toList = true)
    (hscope : ∀ s ∈ scope, s.AllTexts fun text => isClassName text.toList = true) :
    (resolveName scope raw fullyQualified).toText =
      "\\".intercalate (namePath scope fullyQualified raw) := by
  rw [resolveName_eq_ofSegments hblanks (piecesOf_ne_nil hraw), QualifiedName.toText,
    QualifiedName.segments_ofSegments (namePath_ne_nil_of_isClassName hraw hscope)]

/-- **A class name is resolved to a class name**, if no blank is lost. -/
theorem isClassName_resolveName (hblanks : KeepsBlanks scope fullyQualified raw)
    (hraw : isClassName raw.toList = true)
    (hscope : ∀ s ∈ scope, s.AllTexts fun text => isClassName text.toList = true) :
    isClassName (resolveName scope raw fullyQualified).toText.toList = true := by
  have hsegments : ∀ segment ∈ namePath scope fullyQualified raw,
      isSegment segment.toList = true := by
    refine forall_mem_namePath (isSegment_of_mem_piecesOf hraw) fun s hs => ?_
    exact (hscope s hs).imp fun text htext => isSegment_of_mem_piecesOf htext
  rw [toText_resolveName hblanks hraw hscope, QualifiedName.toList_intercalate_backslash]
  have hpieces : ∀ part ∈ (namePath scope fullyQualified raw).map String.toList,
      part ≠ [] ∧ '\\' ∉ part := by
    refine List.forall_mem_map.mpr fun segment hsegment => ?_
    have hname := hsegments segment hsegment
    exact ⟨ne_nil_of_isSegment hname, not_mem_of_isSegment hname⟩
  refine (isClassName_join_iff ?_ hpieces).mpr (List.forall_mem_map.mpr hsegments)
  rw [Ne, List.map_eq_nil_iff]
  exact namePath_ne_nil_of_isClassName hraw hscope

/-- A spelled name in a scope of spelled names has no blanks to lose. -/
theorem IsSpelled.keepsBlanks (hraw : IsSpelled raw.toList)
    (hscope : ∀ s ∈ scope, s.AllTexts fun text => IsSpelled text.toList) :
    KeepsBlanks scope fullyQualified raw :=
  .of_noBlanks (fun s hs => (hscope s hs).imp fun _ htext _ hc => htext.not_isBlank hc)
    fun _ hc => hraw.not_isBlank hc

/-- Without blanks, none occurs in the segments of a resolved name. -/
theorem IsSpelled.forall_mem_namePath (hraw : IsSpelled raw.toList)
    (hscope : ∀ s ∈ scope, s.AllTexts fun text => IsSpelled text.toList) :
    ∀ segment ∈ namePath scope fullyQualified raw,
      QualifiedName.IsPiece segment ∧ ∀ c ∈ segment.toList, Text.isBlank c = false := by
  have hpieces {text : String} (htext : IsSpelled text.toList) :
      ∀ piece ∈ QualifiedName.piecesOf text,
        QualifiedName.IsPiece piece ∧ ∀ c ∈ piece.toList, Text.isBlank c = false :=
    fun piece hpiece => ⟨QualifiedName.isPiece_of_mem_pieces hpiece, fun c hc =>
      htext.not_isBlank (QualifiedName.mem_of_mem_piecesOf hpiece hc)⟩
  exact PhpTypes.forall_mem_namePath (hpieces hraw) fun s hs =>
    (hscope s hs).imp fun _ htext => hpieces htext

/-- Without blanks, none occurs in a resolved name. -/
theorem isSpelled_resolveName (hscope : ∀ s ∈ scope, s.AllTexts fun text => IsSpelled text.toList)
    (hraw : IsSpelled raw.toList) (fullyQualified : Bool) :
    IsSpelled (resolveName scope raw fullyQualified).toText.toList := by
  have hnames := allTexts_isClassName hscope
  have hblanks : KeepsBlanks scope fullyQualified raw := hraw.keepsBlanks hscope
  refine isSpelled_iff.mpr ⟨isClassName_resolveName hblanks hraw.isClassName hnames, ?_⟩
  rw [toText_resolveName hblanks hraw.isClassName hnames,
    QualifiedName.toList_intercalate_backslash]
  intro c hc
  rcases Text.mem_join hc with rfl | ⟨piece, hpiece, hc⟩
  · decide
  · obtain ⟨segment, hsegment, rfl⟩ := List.mem_map.mp hpiece
    exact (hraw.forall_mem_namePath hscope segment hsegment).2 c hc

end TypeExpr

end PhpTypes
