import PhpTypes.Proofs.Name.Qualified
import PhpTypes.Proofs.Text.Case

/-!
# Names and letter case

Reading, resolving and writing names goes along with putting letters in lower case. Raw names that
agree up to letter case, under scopes that do, are resolved to names that do (`resolveName_congr`).

Scopes agree up to letter case (`Scope.SameCase`) if their namespaces do and every alias, in any
case, is bound in both or in neither, to targets that agree. They keep agreeing when they are given
a namespace or an import in different letter case.
-/

namespace PhpTypes

/-- The vocabulary knows a word in every letter case. -/
theorem Keyword.lookup?_foldCase (word : String) : lookup? word.foldCase = lookup? word :=
  lookup?_congr (String.foldCase_foldCase word)

namespace QualifiedName

/-! ## Qualified names -/

/-- The name with the letters `A` to `Z` in lower case. -/
def foldCase (q : QualifiedName) : QualifiedName where
  spaces := q.spaces.map String.foldCase
  name := q.name.foldCase

/-- The segments of a name in lower case are its segments in lower case. -/
theorem segments_foldCase (q : QualifiedName) :
    q.foldCase.segments = q.segments.map String.foldCase := by
  simp [segments, foldCase]

/-- A raw name is cut into the same segments, up to letter case, in lower case. -/
theorem segmentsOf_foldCase (text : String) :
    segmentsOf text.foldCase = (segmentsOf text).map String.foldCase := by
  rw [segmentsOf, segmentsOf, String.toList_foldCase, Text.trim_foldCase,
    Text.pieces_foldCase (by decide), List.map_map, List.map_map]
  exact List.map_congr_left fun piece _ => (String.foldCase_ofList piece).symm

/-- A name that is built from segments in lower case is in lower case. -/
theorem ofSegments_map (segments : List String) :
    ofSegments (segments.map String.foldCase) = (ofSegments segments).foldCase := by
  rw [ofSegments, ofSegments, foldCase, List.map_dropLast, List.getLast?_map]
  cases segments.getLast? <;> rfl

/-- Reading a raw name in lower case gives the name in lower case. -/
theorem parse_foldCase (text : String) : parse text.foldCase = (parse text).foldCase := by
  rw [parse, parse, segmentsOf_foldCase, ofSegments_map]

/-- A name in lower case is written as its text in lower case. -/
theorem toText_foldCase (q : QualifiedName) : q.foldCase.toText = q.toText.foldCase := by
  rw [toText, toText, segments_foldCase, String.foldCase_intercalate "\\" (by decide)]

/-- The words `self`, `static` and `parent` are reserved in every letter case. -/
theorem isReserved_foldCase (q : QualifiedName) : q.foldCase.isReserved = q.isReserved := by
  simp [isReserved, isSimple, foldCase]

/-- The words of the vocabulary are primitive in every letter case. -/
theorem isPrimitive_foldCase (q : QualifiedName) : q.foldCase.isPrimitive = q.isPrimitive := by
  simp [isPrimitive, isSimple, foldCase, Keyword.isKnown, Keyword.lookup?_foldCase]

/-- Raw names that agree up to letter case are read as names that do. -/
theorem parse_congr {s t : String} (h : s.foldCase = t.foldCase) :
    (parse s).foldCase = (parse t).foldCase := by
  rw [← parse_foldCase, h, parse_foldCase]

/-- Names that are read from two texts with a backslash between them agree up to letter case if the
texts do. -/
theorem parse_append_congr {s s' t t' : String} (hs : s.foldCase = s'.foldCase)
    (ht : t.foldCase = t'.foldCase) :
    (parse (s ++ "\\" ++ t)).foldCase = (parse (s' ++ "\\" ++ t')).foldCase := by
  refine parse_congr ?_
  rw [String.foldCase_append, String.foldCase_append, String.foldCase_append,
    String.foldCase_append, hs, ht]

/-- Names that agree up to letter case are written as texts that do. -/
theorem toText_congr {p q : QualifiedName} (h : p.foldCase = q.foldCase) :
    p.toText.foldCase = q.toText.foldCase := by
  rw [← toText_foldCase, h, toText_foldCase]

end QualifiedName

namespace Scope

/-! ## Scopes -/

/-- The scopes agree up to letter case: of namespaces, aliases and targets. -/
structure SameCase (s t : Scope) : Prop where
  current : s.current.map String.foldCase = t.current.map String.foldCase
  target : ∀ name, (s.target? name).map String.foldCase = (t.target? name).map String.foldCase

variable {s t : Scope}

/-- Every scope agrees with itself up to letter case. -/
theorem SameCase.refl (s : Scope) : s.SameCase s :=
  ⟨rfl, fun _ => rfl⟩

/-- An alias is found under every spelling of its letters. -/
theorem target?_congr {name name' : String} (h : name.foldCase = name'.foldCase) :
    s.target? name = s.target? name' := by
  rw [target?, target?, h]

/-- Names that are put behind the namespaces of two scopes keep agreeing up to letter case. -/
theorem SameCase.prepend_congr (h : s.SameCase t) {text text' : String}
    (htext : text.foldCase = text'.foldCase) :
    (s.prepend text).foldCase = (t.prepend text').foldCase := by
  have hcurrent := Text.rel_of_map_eq h.current
  unfold prepend
  generalize s.current = first?, t.current = second? at hcurrent
  cases hcurrent with
  | none => exact QualifiedName.parse_congr htext
  | some hfold => exact QualifiedName.parse_append_congr hfold htext

/-- Imports and the namespace act alike on names that agree up to letter case. -/
theorem SameCase.apply_congr (h : s.SameCase t) {p q : QualifiedName}
    (hname : p.foldCase = q.foldCase) : (s.apply p).foldCase = (t.apply q).foldCase := by
  have hcons (q : QualifiedName) : ∃ first rest, q.segments = first :: rest :=
    List.exists_cons_of_ne_nil (List.append_ne_nil_of_right_ne_nil q.spaces (List.cons_ne_nil _ _))
  obtain ⟨first, rest, hp⟩ := hcons p
  obtain ⟨first', rest', hq⟩ := hcons q
  have hsegments : p.segments.map String.foldCase = q.segments.map String.foldCase := by
    rw [← QualifiedName.segments_foldCase, hname, QualifiedName.segments_foldCase]
  rw [hp, hq, List.map_cons, List.map_cons] at hsegments
  obtain ⟨hfirst, hrest⟩ := List.cons.inj hsegments
  have hempty : rest.isEmpty = rest'.isEmpty := by
    rw [← List.isEmpty_map (f := String.foldCase), hrest, List.isEmpty_map]
  have hjoined : ("\\".intercalate rest).foldCase = ("\\".intercalate rest').foldCase := by
    rw [String.foldCase_intercalate _ (by decide), hrest, String.foldCase_intercalate _ (by decide)]
  have hword : first.sameFolded "namespace" = first'.sameFolded "namespace" := by
    rw [String.sameFolded, String.sameFolded, hfirst]
  -- Both scopes bind the first segment, or neither does.
  have htarget : Option.Rel (fun a b => a.foldCase = b.foldCase) (s.target? first)
      (t.target? first') := by
    rw [← target?_congr hfirst]
    exact Text.rel_of_map_eq (h.target first)
  simp only [apply, hp, hq, List.headD_cons, List.tail_cons, hempty, hword]
  generalize s.target? first = target?, t.target? first' = target?' at htarget
  cases htarget with
  | some hfold =>
    dsimp only
    split
    · exact QualifiedName.parse_congr hfold
    · exact QualifiedName.parse_append_congr hfold hjoined
  | none =>
    dsimp only
    split
    · exact h.prepend_congr hjoined
    · exact h.prepend_congr (QualifiedName.toText_congr hname)

/-! ## Building scopes -/

/-- The backslash is no letter, so lower case neither adds nor removes one. -/
theorem isSeparator_toLower (c : Char) : isSeparator c.toLower = isSeparator c :=
  Text.apply_toLower (by decide) c

/-- A namespace loses the backslashes at its ends alike before and after letters are put in lower
case. -/
theorem map_normalizeNamespace (text : String) :
    (normalizeNamespace text).map String.foldCase = normalizeNamespace text.foldCase := by
  unfold normalizeNamespace
  rw [String.toList_foldCase, Text.dropWhile_foldCase isSeparator_toLower,
    Text.dropEndWhile_foldCase isSeparator_toLower]
  generalize Text.dropEndWhile isSeparator (text.toList.dropWhile isSeparator) = cs
  cases cs with
  | nil => rfl
  | cons c cs => exact congrArg some (String.foldCase_ofList (c :: cs))

/-- A namespace in different letter case leaves scopes that agree up to letter case. -/
theorem SameCase.setNamespace (h : s.SameCase t) {text text' : Option String}
    (htext : text.map String.foldCase = text'.map String.foldCase) :
    (s.setNamespace text).SameCase (t.setNamespace text') where
  current := by
    show (text.bind normalizeNamespace).map _ = (text'.bind normalizeNamespace).map _
    cases Text.rel_of_map_eq htext with
    | none => rfl
    | some hfold =>
      rw [Option.bind_some, Option.bind_some, map_normalizeNamespace, map_normalizeNamespace, hfold]
  target := h.target

/-- Removing the entries of another key does not change what a key is bound to. -/
theorem lookup_filter_ne {key other : String} (hne : key ≠ other)
    (entries : List (String × String)) :
    (entries.filter fun entry => entry.1 != other).lookup key = entries.lookup key := by
  induction entries with
  | nil => rfl
  | cons entry rest ih =>
    obtain ⟨name, target⟩ := entry
    by_cases hname : name = other
    · have hkey : (key == name) = false := by simpa [hname] using hne
      rw [List.filter_cons_of_neg (by simpa using hname), ih, List.lookup_cons, hkey]
    · rw [List.filter_cons_of_pos (by simpa using hname), List.lookup_cons, List.lookup_cons, ih]

/-- An import without an alias or without a target is ignored. -/
theorem addAlias_of_empty {localName target : String}
    (h : localName = "" ∨ dropSeparators target = "") : s.addAlias localName target = s :=
  if_pos (by simpa using h)

/-- An import with an alias and a target replaces what the alias, in any case, was bound to. -/
theorem addAlias_of_ne {localName target : String} (hlocal : localName ≠ "")
    (htarget : dropSeparators target ≠ "") : s.addAlias localName target = { s with
      imports := (localName.foldCase, dropSeparators target) ::
        s.imports.filter fun entry => entry.1 != localName.foldCase } :=
  if_neg (by simpa using ⟨hlocal, htarget⟩)

/-- A target alone is imported under its last segment. -/
theorem addImport_eq (s : Scope) (target : String) :
    s.addImport target = s.addAlias (lastSegment (dropSeparators target)) target :=
  rfl

/-- An import leaves the namespace as it is. -/
theorem current_addAlias (s : Scope) (localName target : String) :
    (s.addAlias localName target).current = s.current := by
  by_cases h : localName = "" ∨ dropSeparators target = ""
  · rw [addAlias_of_empty h]
  · obtain ⟨hlocal, htarget⟩ := not_or.mp h
    rw [addAlias_of_ne hlocal htarget]

/-- What an alias is bound to after an import. -/
theorem target?_addAlias (s : Scope) (localName target name : String) :
    (s.addAlias localName target).target? name =
      if localName.isEmpty || (dropSeparators target).isEmpty then s.target? name
      else if name.foldCase = localName.foldCase then some (dropSeparators target)
      else s.target? name := by
  unfold addAlias
  dsimp only
  split
  · rfl
  · rw [target?, target?, List.lookup_cons]
    split
    · next heq => rw [if_pos (beq_iff_eq.mp heq)]
    · next hne =>
      have hfold : name.foldCase ≠ localName.foldCase := by simpa using hne
      rw [if_neg hfold, lookup_filter_ne hfold]

/-- The backslashes at the start of a target are dropped in lower case too. -/
theorem dropSeparators_foldCase (text : String) :
    dropSeparators text.foldCase = (dropSeparators text).foldCase := by
  rw [dropSeparators, dropSeparators, String.toList_foldCase,
    Text.dropWhile_foldCase isSeparator_toLower, String.foldCase_ofList]

/-- The last segment of a target is the same up to letter case. -/
theorem lastSegment_foldCase (text : String) :
    lastSegment text.foldCase = (lastSegment text).foldCase := by
  have hnot (c : Char) : (!isSeparator c.toLower) = !isSeparator c := by rw [isSeparator_toLower]
  rw [lastSegment, lastSegment, String.toList_foldCase, ← Text.foldCase_reverse,
    Text.takeWhile_foldCase hnot, ← Text.foldCase_reverse, String.foldCase_ofList]

/-- An import in different letter case leaves scopes that agree up to letter case. -/
theorem SameCase.addAlias (h : s.SameCase t) {localName localName' target target' : String}
    (hlocal : localName.foldCase = localName'.foldCase)
    (htarget : target.foldCase = target'.foldCase) :
    (s.addAlias localName target).SameCase (t.addAlias localName' target') where
  current := by rw [current_addAlias, current_addAlias, h.current]
  target name := by
    have hdrop : (dropSeparators target).foldCase = (dropSeparators target').foldCase := by
      rw [← dropSeparators_foldCase, htarget, dropSeparators_foldCase]
    have hempty : (localName.isEmpty || (dropSeparators target).isEmpty) =
        (localName'.isEmpty || (dropSeparators target').isEmpty) := by
      rw [← String.isEmpty_foldCase localName, hlocal, String.isEmpty_foldCase,
        ← String.isEmpty_foldCase (dropSeparators target), hdrop, String.isEmpty_foldCase]
    rw [target?_addAlias, target?_addAlias, hempty, hlocal]
    split
    · exact h.target name
    · split
      · rw [Option.map_some, Option.map_some, hdrop]
      · exact h.target name

/-- A target alone, imported in different letter case, leaves scopes that agree up to letter case.
-/
theorem SameCase.addImport (h : s.SameCase t) {target target' : String}
    (htarget : target.foldCase = target'.foldCase) :
    (s.addImport target).SameCase (t.addImport target') := by
  refine h.addAlias ?_ htarget
  rw [← lastSegment_foldCase, ← lastSegment_foldCase, ← dropSeparators_foldCase,
    ← dropSeparators_foldCase, htarget]

end Scope

/-! ## Resolving names -/

/-- **Names are resolved without regard to letter case**: that of the name, the namespace, the
aliases and the targets. -/
theorem resolveName_congr {s t : Option Scope} (h : Option.Rel Scope.SameCase s t)
    {raw raw' : String} (hraw : raw.foldCase = raw'.foldCase) (fullyQualified : Bool) :
    (resolveName s raw fullyQualified).foldCase = (resolveName t raw' fullyQualified).foldCase := by
  have hparse := QualifiedName.parse_congr hraw
  have hreserved :
      (QualifiedName.parse raw).isReserved = (QualifiedName.parse raw').isReserved := by
    rw [← QualifiedName.isReserved_foldCase, hparse, QualifiedName.isReserved_foldCase]
  have hprimitive :
      (QualifiedName.parse raw).isPrimitive = (QualifiedName.parse raw').isPrimitive := by
    rw [← QualifiedName.isPrimitive_foldCase, hparse, QualifiedName.isPrimitive_foldCase]
  have hleading : ((Text.trim raw.toList).head? == some '\\') =
      ((Text.trim raw'.toList).head? == some '\\') := by
    rw [Bool.eq_iff_iff, beq_iff_eq, beq_iff_eq, ← Text.head?_foldCase_eq_iff (by decide),
      ← Text.trim_foldCase, String.foldCase_eq_iff.mp hraw, Text.trim_foldCase,
      Text.head?_foldCase_eq_iff (by decide)]
  simp only [resolveName, hreserved, hprimitive, hleading]
  split
  · exact hparse
  · split
    · exact hparse
    · cases h with
      | none => exact hparse
      | some hscope => exact hscope.apply_congr hparse

end PhpTypes
