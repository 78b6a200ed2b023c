import PhpTypes.Proofs.Name.Case
import PhpTypes.Proofs.Text.Pieces

/-!
# Names as lists of segments

Resolving a name puts texts together, cuts them at their backslashes and puts the pieces together
again. On segments it is simpler: the first one is replaced by the segments of its import, or those
of the current namespace come in front (`Scope.path`, `Scope.apply_ofSegments`).

`namePath` gives the segments of what a raw name stands for, and resolving gives the name of these
segments (`resolveName_eq_ofSegments`). This takes that trimming finds no blank at the ends of the
texts that are cut (`KeepsBlanks`). Where the word `namespace` is dropped, a blank behind it comes to
stand at such an end and is lost (`LosesBlank`).
-/

namespace PhpTypes

namespace QualifiedName

/-! ## Pieces of a name -/

/-- The non-empty pieces of a text between its backslashes. -/
def piecesOf (text : String) : List String :=
  (Text.pieces '\\' text.toList).map String.ofList

/-- A text that does not start with a backslash starts with its first piece. -/
theorem head?_of_piecesOf {text first : String} {rest : List String}
    (hhead : text.toList.head? ≠ some '\\') (h : piecesOf text = first :: rest) :
    first.toList.head? = text.toList.head? := by
  rw [piecesOf] at h
  cases htext : text.toList with
  | nil =>
    rw [htext] at h
    cases h
  | cons c chars =>
    have hc : c ≠ '\\' := by
      rintro rfl
      exact hhead (by rw [htext]; rfl)
    obtain ⟨piece, others, hpieces⟩ := Text.exists_pieces_cons hc chars
    rw [htext, hpieces, List.map_cons] at h
    rw [← (List.cons.inj h).1, String.toList_ofList]
    rfl

/-- Pieces have no characters but those of the text. -/
theorem mem_of_mem_piecesOf {text segment : String} (h : segment ∈ piecesOf text) {c : Char}
    (hc : c ∈ segment.toList) : c ∈ text.toList := by
  obtain ⟨piece, hpiece, rfl⟩ := List.mem_map.mp h
  rw [String.toList_ofList] at hc
  exact Text.mem_of_mem_pieces hpiece hc

/-- A text that trimming leaves alone is read as its pieces. -/
theorem segmentsOf_eq_piecesOf {text : String} (h : Text.trim text.toList = text.toList) :
    segmentsOf text = piecesOf text := by
  rw [segmentsOf, h, piecesOf]

/-- A backslash between two texts cuts one from the other. -/
theorem piecesOf_append (s t : String) :
    piecesOf (s ++ "\\" ++ t) = piecesOf s ++ piecesOf t := by
  have hchars : (s ++ "\\" ++ t).toList = s.toList ++ '\\' :: t.toList := by simp
  rw [piecesOf, hchars, Text.pieces_append_cons, List.map_append, piecesOf, piecesOf]

/-- Joining texts with backslashes joins their characters. -/
theorem toList_intercalate_backslash (segments : List String) :
    ("\\".intercalate segments).toList = Text.join '\\' (segments.map String.toList) := by
  rw [String.toList_intercalate]
  rfl

/-- The pieces of joined pieces are these pieces. -/
theorem piecesOf_intercalate {segments : List String} (h : ∀ segment ∈ segments, IsPiece segment) :
    piecesOf ("\\".intercalate segments) = segments := by
  have hpieces : ∀ piece ∈ segments.map String.toList, piece ≠ [] ∧ '\\' ∉ piece := by
    intro piece hpiece
    obtain ⟨segment, hsegment, rfl⟩ := List.mem_map.mp hpiece
    exact h segment hsegment
  rw [piecesOf, toList_intercalate_backslash, Text.pieces_join hpieces, List.map_map]
  simp [Function.comp_def]

/-- A text without blanks at its ends is read as the name of its pieces. -/
theorem parse_eq {text : String} (hfirst : Text.NoBlankFirst text.toList)
    (hlast : Text.NoBlankLast text.toList) : parse text = ofSegments (piecesOf text) := by
  rw [parse, segmentsOf_eq_piecesOf (Text.trim_of_ends hfirst hlast)]

/-- Joined pieces start with a blank only if the first piece does. -/
theorem noBlankFirst_intercalate {segments : List String}
    (hpieces : ∀ segment ∈ segments, IsPiece segment)
    (h : ∀ segment, segments.head? = some segment → Text.NoBlankFirst segment.toList) :
    Text.NoBlankFirst ("\\".intercalate segments).toList := by
  rw [toList_intercalate_backslash]
  refine .join (List.forall_mem_map.mpr fun segment hsegment => (hpieces segment hsegment).1) ?_
  intro piece hpiece
  rw [List.head?_map, Option.map_eq_some_iff] at hpiece
  obtain ⟨segment, hsegment, rfl⟩ := hpiece
  exact h segment hsegment

/-- Joined pieces end with a blank only if the last piece does. -/
theorem noBlankLast_intercalate {segments : List String}
    (hpieces : ∀ segment ∈ segments, IsPiece segment)
    (h : ∀ segment, segments.getLast? = some segment → Text.NoBlankLast segment.toList) :
    Text.NoBlankLast ("\\".intercalate segments).toList := by
  rw [toList_intercalate_backslash]
  refine .join (List.forall_mem_map.mpr fun segment hsegment => (hpieces segment hsegment).1) ?_
  intro piece hpiece
  rw [List.getLast?_map, Option.map_eq_some_iff] at hpiece
  obtain ⟨segment, hsegment, rfl⟩ := hpiece
  exact h segment hsegment

/-- Joined pieces are read as the name of these pieces. -/
theorem parse_intercalate {segments : List String} (hpieces : ∀ segment ∈ segments, IsPiece segment)
    (hfirst : ∀ segment, segments.head? = some segment → Text.NoBlankFirst segment.toList)
    (hlast : ∀ segment, segments.getLast? = some segment → Text.NoBlankLast segment.toList) :
    parse ("\\".intercalate segments) = ofSegments segments := by
  rw [parse_eq (noBlankFirst_intercalate hpieces hfirst) (noBlankLast_intercalate hpieces hlast),
    piecesOf_intercalate hpieces]

end QualifiedName

open QualifiedName (piecesOf IsPiece)

namespace Scope

/-! ## Imports and namespaces on segments -/

/-- The namespace and the targets of all imports satisfy `P`. -/
structure AllTexts (P : String → Prop) (scope : Scope) : Prop where
  current : ∀ text, scope.current = some text → P text
  target : ∀ entry ∈ scope.imports, P entry.2

/-- What holds of all texts of a scope holds of the target of an alias. -/
theorem AllTexts.of_target? {P : String → Prop} {scope : Scope} (h : scope.AllTexts P)
    {name target : String} (htarget : scope.target? name = some target) : P target := by
  obtain ⟨before, after, hentries, -⟩ := List.lookup_eq_some_iff.mp htarget
  refine h.target (name.foldCase, target) ?_
  rw [hentries]
  exact List.mem_append_right _ List.mem_cons_self

/-- What follows from a property of all texts of a scope holds of all of them. -/
theorem AllTexts.imp {P Q : String → Prop} {scope : Scope} (h : scope.AllTexts P)
    (himp : ∀ text, P text → Q text) : scope.AllTexts Q where
  current text htext := himp text (h.current text htext)
  target entry hentry := himp entry.2 (h.target entry hentry)

/-- The segments of the current namespace; the global one has none. -/
def currentSegments (scope : Scope) : List String :=
  (scope.current.map piecesOf).getD []

/-- The segments of what a name stands for, by imports and the current namespace. -/
def path (scope : Scope) (first : String) (rest : List String) : List String :=
  match scope.target? first with
  | some target => piecesOf target ++ rest
  | none =>
    if first.foldCase = "namespace" ∧ rest ≠ [] then scope.currentSegments ++ rest
    else scope.currentSegments ++ first :: rest

variable {scope : Scope}

/-- A text in the current namespace. A namespace in front of it protects a blank at its start. -/
theorem prepend_eq {text : String}
    (hcurrent : ∀ name, scope.current = some name → Text.NoBlankFirst name.toList)
    (hfirst : scope.current = none → Text.NoBlankFirst text.toList)
    (hlast : Text.NoBlankLast text.toList) :
    scope.prepend text = .ofSegments (scope.currentSegments ++ piecesOf text) := by
  unfold prepend currentSegments
  cases hscope : scope.current with
  | none => exact QualifiedName.parse_eq (hfirst hscope) hlast
  | some name =>
    have hchars : (name ++ "\\" ++ text).toList = name.toList ++ '\\' :: text.toList := by simp
    have hread := @QualifiedName.parse_eq (name ++ "\\" ++ text)
    rw [hchars, QualifiedName.piecesOf_append] at hread
    exact hread ((hcurrent name hscope).append_cons (by decide) _) (hlast.append_cons (by decide) _)

/-- **Imports and the namespace act on segments.** Blanks that are put at an end of a text would be
trimmed off, so there must be none. -/
theorem apply_ofSegments {first : String} {rest : List String}
    (hpieces : ∀ segment ∈ first :: rest, IsPiece segment)
    (hfirst : Text.NoBlankFirst first.toList)
    (hlast : ∀ last, (first :: rest).getLast? = some last → Text.NoBlankLast last.toList)
    (hcurrent : ∀ name, scope.current = some name → Text.NoBlankFirst name.toList)
    (htarget : ∀ target, scope.target? first = some target →
      Text.NoBlankFirst target.toList ∧ Text.NoBlankLast target.toList)
    (hnamespace : scope.current = none → scope.target? first = none →
      first.foldCase = "namespace" →
      ∀ next, rest.head? = some next → Text.NoBlankFirst next.toList) :
    scope.apply (.ofSegments (first :: rest)) = .ofSegments (scope.path first rest) := by
  have hsegments := QualifiedName.segments_ofSegments (List.cons_ne_nil first rest)
  have hrestPieces : ∀ segment ∈ rest, IsPiece segment :=
    fun segment hsegment => hpieces segment (List.mem_cons_of_mem _ hsegment)
  have hrestLast : Text.NoBlankLast ("\\".intercalate rest).toList := by
    refine QualifiedName.noBlankLast_intercalate hrestPieces fun last hmem => hlast last ?_
    rw [List.getLast?_cons, hmem, Option.getD_some]
  have hfull : (QualifiedName.ofSegments (first :: rest)).toText =
      "\\".intercalate (first :: rest) := by rw [QualifiedName.toText, hsegments]
  have hword : first.sameFolded "namespace" = true ↔ first.foldCase = "namespace" := by
    have hfold : "namespace".foldCase = "namespace" := by decide
    rw [String.sameFolded, beq_iff_eq, hfold]
  -- The text that is read again has its pieces cut at the backslash that was put between.
  simp only [apply, path, hsegments, List.headD_cons, List.tail_cons, hfull]
  cases hbound : scope.target? first with
  | some target =>
    obtain ⟨htargetFirst, htargetLast⟩ := htarget target hbound
    dsimp only
    cases rest with
    | nil =>
      rw [List.append_nil]
      exact QualifiedName.parse_eq htargetFirst htargetLast
    | cons next rest =>
      have hchars : (target ++ "\\" ++ "\\".intercalate (next :: rest)).toList =
          target.toList ++ '\\' :: ("\\".intercalate (next :: rest)).toList := by simp
      have hread := @QualifiedName.parse_eq (target ++ "\\" ++ "\\".intercalate (next :: rest))
      rw [hchars, QualifiedName.piecesOf_append, QualifiedName.piecesOf_intercalate hrestPieces]
        at hread
      exact hread (htargetFirst.append_cons (by decide) _) (hrestLast.append_cons (by decide) _)
  | none =>
    -- Only here a blank may come to stand first: when the word `namespace` is dropped.
    have hcondition : (!rest.isEmpty && first.sameFolded "namespace") = true ↔
        first.foldCase = "namespace" ∧ rest ≠ [] := by
      rw [Bool.and_eq_true, hword, Bool.not_eq_true', List.isEmpty_eq_false_iff, and_comm]
    simp only [hcondition]
    split
    · next hword =>
      have hread := prepend_eq hcurrent (fun hnone => QualifiedName.noBlankFirst_intercalate
        hrestPieces (hnamespace hnone hbound hword.1)) hrestLast
      rwa [QualifiedName.piecesOf_intercalate hrestPieces] at hread
    · have hstart : Text.NoBlankFirst ("\\".intercalate (first :: rest)).toList := by
        refine QualifiedName.noBlankFirst_intercalate hpieces fun segment hsegment => ?_
        rwa [← Option.some.inj hsegment]
      have hread := prepend_eq hcurrent (fun _ => hstart)
        (QualifiedName.noBlankLast_intercalate hpieces hlast)
      rwa [QualifiedName.piecesOf_intercalate hpieces] at hread

end Scope

/-! ## Resolving on segments -/

/-- Whether a word alone is never looked up: it refers to the enclosing class, or it belongs to the
vocabulary. -/
def QualifiedName.isFixedWord (word : String) : Bool :=
  reservedNames.contains word.foldCase || Keyword.isKnown word

/-- The segments of what a raw name stands for in a scope, or in no scope. -/
def namePath (scope : Option Scope) (fullyQualified : Bool) (raw : String) : List String :=
  if fullyQualified = true ∨ raw.toList.head? = some '\\' then piecesOf raw
  else
    match scope, piecesOf raw with
    | some scope, first :: rest =>
      if rest = [] ∧ QualifiedName.isFixedWord first = true then [first] else scope.path first rest
    | _, pieces => pieces

/-- The name starts with the word `namespace`, which resolving drops in the global namespace, and
these segments follow. -/
def DropsNamespace (scope : Option Scope) (raw : String) (path : List String) : Prop :=
  ∃ s first, scope = some s ∧ s.current = none ∧ s.target? first = none ∧
    piecesOf raw = first :: path ∧ path ≠ [] ∧ first.foldCase = "namespace"

/-- A blank is lost when the name is resolved: what follows the dropped word starts with it. -/
def LosesBlank (scope : Option Scope) (raw : String) : Prop :=
  ∃ next rest, DropsNamespace scope raw (next :: rest) ∧ ¬ Text.NoBlankFirst next.toList

/-- No blank stands where trimming a text that resolving puts together would find it. -/
structure KeepsBlanks (scope : Option Scope) (fullyQualified : Bool) (raw : String) : Prop where
  first : Text.NoBlankFirst raw.toList
  last : Text.NoBlankLast raw.toList
  lastPiece : ∀ piece, (piecesOf raw).getLast? = some piece → Text.NoBlankLast piece.toList
  texts : ∀ s ∈ scope, s.AllTexts fun text =>
    Text.NoBlankFirst text.toList ∧ Text.NoBlankLast text.toList
  losesNone : fullyQualified = false → raw.toList.head? ≠ some '\\' → ¬ LosesBlank scope raw

/-- A text without blanks, in a scope without blanks, has none to lose. -/
theorem KeepsBlanks.of_noBlanks {scope : Option Scope} {fullyQualified : Bool} {raw : String}
    (hscope : ∀ s ∈ scope, s.AllTexts fun text => ∀ c ∈ text.toList, Text.isBlank c = false)
    (hraw : ∀ c ∈ raw.toList, Text.isBlank c = false) :
    KeepsBlanks scope fullyQualified raw := by
  have hpieces : ∀ piece ∈ piecesOf raw, ∀ c ∈ piece.toList, Text.isBlank c = false :=
    fun piece hpiece c hc => hraw c (QualifiedName.mem_of_mem_piecesOf hpiece hc)
  refine ⟨.of_forall hraw, .of_forall hraw, fun piece hpiece => ?_, fun s hs => ?_, ?_⟩
  · exact .of_forall (hpieces piece (List.mem_of_getLast? hpiece))
  · exact (hscope s hs).imp fun text htext => ⟨.of_forall htext, .of_forall htext⟩
  · rintro - - ⟨next, rest, ⟨s, first, -, -, -, hraw, -⟩, hblank⟩
    refine hblank (.of_forall (hpieces next ?_))
    rw [hraw]
    exact List.mem_cons_of_mem first List.mem_cons_self

namespace QualifiedName

/-- A name is reserved or primitive exactly if it is a bare fixed word. -/
theorem isReserved_or_isPrimitive_ofSegments (first : String) (rest : List String) :
    ((ofSegments (first :: rest)).isReserved || (ofSegments (first :: rest)).isPrimitive) = true ↔
      rest = [] ∧ isFixedWord first = true := by
  cases rest with
  | nil => simp [isReserved, isPrimitive, isSimple, ofSegments, isFixedWord]
  | cons next rest => simp [isReserved, isPrimitive, isSimple, ofSegments]

end QualifiedName

variable {scope : Option Scope} {fullyQualified : Bool} {raw : String}

/-- A name in a scope, unless it is declared to be full or starts with a backslash. -/
theorem resolveName_of_pieces {s : Scope} {first : String} {rest : List String}
    (h : KeepsBlanks (some s) false raw) (hhead : raw.toList.head? ≠ some '\\')
    (hpieces : piecesOf raw = first :: rest) :
    resolveName (some s) raw false = .ofSegments (if rest = [] ∧
      QualifiedName.isFixedWord first = true then [first] else s.path first rest) := by
  have htrim : Text.trim raw.toList = raw.toList := Text.trim_of_ends h.first h.last
  have hparse : QualifiedName.parse raw = .ofSegments (first :: rest) := by
    rw [QualifiedName.parse_eq h.first h.last, hpieces]
  have hnotFull : ((false || (Text.trim raw.toList).head? == some '\\') = true) = False := by
    rw [htrim, Bool.false_or, beq_iff_eq, eq_iff_iff, iff_false]
    exact hhead
  have hfixed := QualifiedName.isReserved_or_isPrimitive_ofSegments first rest
  simp only [resolveName, hparse, hnotFull, if_false, hfixed]
  split
  · next hword => rw [hword.1]
  · refine Scope.apply_ofSegments (fun segment hsegment => ?_) ?_ (hpieces ▸ h.lastPiece) ?_ ?_ ?_
    · rw [← hpieces] at hsegment
      exact QualifiedName.isPiece_of_mem_pieces hsegment
    · rw [Text.NoBlankFirst, QualifiedName.head?_of_piecesOf hhead hpieces]
      exact h.first
    · exact fun name hname => ((h.texts s rfl).current name hname).1
    · exact fun target htarget => (h.texts s rfl).of_target? htarget
    · intro hcurrent htarget hword next hnext
      -- A lost blank is just what the condition on the name excludes.
      refine Classical.byContradiction fun hblank => ?_
      obtain ⟨others, rfl⟩ := List.head?_eq_some_iff.mp hnext
      refine h.losesNone rfl hhead ⟨next, others, ?_, hblank⟩
      exact ⟨s, first, rfl, hcurrent, htarget, hpieces, List.cons_ne_nil next others, hword⟩

/-- What is left of the text behind the dropped word is read as a name of its own. -/
theorem resolveName_of_dropsNamespace {path : List String}
    (htrim : Text.trim raw.toList = raw.toList) (hhead : raw.toList.head? ≠ some '\\')
    (h : DropsNamespace scope raw path) :
    resolveName scope raw false = .parse ("\\".intercalate path) := by
  obtain ⟨s, first, rfl, hcurrent, htarget, hpieces, hne, hword⟩ := h
  have hparse : QualifiedName.parse raw = .ofSegments (first :: path) := by
    rw [QualifiedName.parse, QualifiedName.segmentsOf_eq_piecesOf htrim, hpieces]
  have hsegments := QualifiedName.segments_ofSegments (List.cons_ne_nil first path)
  have hfixed : ¬ ((QualifiedName.ofSegments (first :: path)).isReserved ||
      (QualifiedName.ofSegments (first :: path)).isPrimitive) = true := by
    rw [QualifiedName.isReserved_or_isPrimitive_ofSegments]
    exact fun hsingle => hne hsingle.1
  have hfolded : first.sameFolded "namespace" = true := by
    have hfold : "namespace".foldCase = "namespace" := by decide
    rw [String.sameFolded, beq_iff_eq, hfold, hword]
  simp [resolveName, htrim, hhead, hparse, hfixed, Scope.apply, hsegments, htarget, hne, hfolded,
    Scope.prepend, hcurrent]

/-- **Names are resolved segment by segment.** -/
theorem resolveName_eq_ofSegments (h : KeepsBlanks scope fullyQualified raw)
    (hne : piecesOf raw ≠ []) :
    resolveName scope raw fullyQualified = .ofSegments (namePath scope fullyQualified raw) := by
  have htrim : Text.trim raw.toList = raw.toList := Text.trim_of_ends h.first h.last
  have hparse := QualifiedName.parse_eq h.first h.last
  obtain ⟨first, rest, hpieces⟩ := List.exists_cons_of_ne_nil hne
  unfold namePath
  split
  · next hfull =>
    have hkept : (fullyQualified || (Text.trim raw.toList).head? == some '\\') = true := by
      rwa [htrim, Bool.or_eq_true, beq_iff_eq]
    simp only [resolveName, hkept, if_true, hparse]
  · next hfull =>
    obtain ⟨hnot, hhead⟩ := not_or.mp hfull
    rw [Bool.not_eq_true] at hnot
    subst hnot
    rw [hpieces]
    cases scope with
    | none =>
      simp only [resolveName, hparse, hpieces, ite_self]
    | some s => exact resolveName_of_pieces h hhead hpieces

/-! ## Segments of a resolved name -/

/-- A resolved name has a segment, if the raw name has one and so have the targets of imports. -/
theorem namePath_ne_nil (hne : piecesOf raw ≠ [])
    (hscope : ∀ s ∈ scope, ∀ name target, s.target? name = some target → piecesOf target ≠ []) :
    namePath scope fullyQualified raw ≠ [] := by
  obtain ⟨first, rest, hpieces⟩ := List.exists_cons_of_ne_nil hne
  unfold namePath
  split
  · exact hne
  · cases scope with
    | none => exact hne
    | some s =>
      rw [hpieces]
      dsimp only
      split
      · exact List.cons_ne_nil _ _
      · unfold Scope.path
        split
        · next target htarget =>
          exact List.append_ne_nil_of_left_ne_nil (hscope s rfl first target htarget) rest
        · split
          · next hrest => exact List.append_ne_nil_of_right_ne_nil _ hrest.2
          · exact List.append_ne_nil_of_right_ne_nil _ (List.cons_ne_nil first rest)

/-- Every segment comes from the raw name, from the current namespace or from the target of an
import. -/
theorem forall_mem_namePath {P : String → Prop} (hraw : ∀ piece ∈ piecesOf raw, P piece)
    (hscope : ∀ s ∈ scope, s.AllTexts fun text => ∀ piece ∈ piecesOf text, P piece) :
    ∀ segment ∈ namePath scope fullyQualified raw, P segment := by
  unfold namePath
  split
  · exact hraw
  · cases scope with
    | none => exact hraw
    | some s =>
      cases hpieces : piecesOf raw with
      | nil => exact fun segment hsegment => nomatch hsegment
      | cons first rest =>
        rw [hpieces] at hraw
        obtain ⟨hfirst, hrest⟩ := List.forall_mem_cons.mp hraw
        have hcurrent : ∀ segment ∈ s.currentSegments, P segment := by
          unfold Scope.currentSegments
          cases hname : s.current with
          | none => exact fun segment hsegment => nomatch hsegment
          | some name => exact (hscope s rfl).current name hname
        dsimp only
        split
        · exact List.forall_mem_singleton.mpr hfirst
        · unfold Scope.path
          split
          · next target htarget =>
            exact List.forall_mem_append.mpr ⟨(hscope s rfl).of_target? htarget, hrest⟩
          · split
            · exact List.forall_mem_append.mpr ⟨hcurrent, hrest⟩
            · exact List.forall_mem_append.mpr ⟨hcurrent, hraw⟩

end PhpTypes
