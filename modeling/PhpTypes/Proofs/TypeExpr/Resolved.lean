import PhpTypes.Proofs.TypeExpr.Naming

/-!
# Reading resolved names

A class name is read as the name that it is resolved to (`resolve_className`): a word of the
vocabulary, or else a class that may be `null`. What the name is resolved to can be written and read
again in any scope, behind a backslash or declared to be full, and outside of all scopes: it gives
the same mask and the same registry (`resolve_contextFree`). Words that an import stands for are
among these names.
-/

namespace PhpTypes

/-- The mask of a resolved name: that of a bare word of the vocabulary, or that of the class or
`null`. -/
def Registry.namedMask (r : Registry) (name : QualifiedName) : Mask × Registry :=
  if name.isPrimitive then (Keyword.maskOf name.name, r) else r.nominalMask name true

namespace Registry

variable {r : Registry} {name : QualifiedName}

/-- A word of the vocabulary has its own mask. -/
theorem namedMask_of_lookup? {keyword : Keyword}
    (h : Keyword.lookup? name.toText = some keyword) : r.namedMask name = (keyword.mask, r) := by
  have hprimitive : name.isPrimitive = true := by
    rw [← Bool.not_eq_false, ← QualifiedName.lookup?_toText_eq_none_iff, h]
    exact fun hnone => nomatch hnone
  have hsimple : name.isSimple = true := (Bool.and_eq_true_iff.mp hprimitive).1
  rw [QualifiedName.toText_of_isSimple hsimple] at h
  rw [namedMask, if_pos hprimitive, Keyword.maskOf, h]
  rfl

/-- A name that is no word of the vocabulary has the mask of its class, together with `null`. -/
theorem namedMask_of_lookup?_eq_none (h : Keyword.lookup? name.toText = none) :
    r.namedMask name = r.nominalMask name true := by
  rw [namedMask, QualifiedName.lookup?_toText_eq_none_iff.mp h, if_neg Bool.false_ne_true]

end Registry

namespace TypeExpr

variable {r : Registry} {scope : Option Scope} {fullyQualified : Bool} {raw : String}

/-! ## Reading one name -/

/-- An annotation without blanks and brackets at its ends is read as it stands. -/
theorem resolve_of_trim_eq {text : String} (htrim : Text.trim text.toList = text.toList)
    (hlast : text.toList.getLast? ≠ some ']') :
    resolve scope fullyQualified text r = resolveCore scope fullyQualified text r := by
  rw [resolve, peel_eq, htrim, peelTrimmed_of_getLast?_ne hlast]
  dsimp only
  rw [String.ofList_toList]
  rfl

/-- A word of the vocabulary is read as its meaning. -/
theorem resolve_of_lookup? {text : String} {keyword : Keyword}
    (htrim : Text.trim text.toList = text.toList) (hlast : text.toList.getLast? ≠ some ']')
    (h : Keyword.lookup? text = some keyword) :
    resolve scope fullyQualified text r = (keyword.mask, r) := by
  have hnone : Keyword.lookup? "" = none := by decide
  have hempty : ¬ text.isEmpty = true := by
    intro hempty
    rw [String.isEmpty_iff.mp hempty, hnone] at h
    cases h
  rw [resolve_of_trim_eq htrim hlast, resolveCore, if_neg hempty, h]

/-- A word of the vocabulary stays as it is. -/
theorem resolveName_of_lookup? (hraw : isClassName raw.toList = true)
    (htrim : Text.trim raw.toList = raw.toList) {keyword : Keyword}
    (h : Keyword.lookup? raw = some keyword) :
    resolveName scope raw fullyQualified = .parse raw ∧ (QualifiedName.parse raw).toText = raw := by
  have hsep : '\\' ∉ raw.toList := by
    intro hmem
    rw [Keyword.lookup?_eq_none hmem] at h
    cases h
  have hhead : raw.toList.head? ≠ some '\\' := fun heq => hsep (List.mem_of_head? heq)
  have htext : (QualifiedName.parse raw).toText = raw := by
    rw [toText_parse hraw htrim, nameBody_of_head?_ne hhead, String.ofList_toList]
  have hprimitive : (QualifiedName.parse raw).isPrimitive = true := by
    rw [← Bool.not_eq_false, ← QualifiedName.lookup?_toText_eq_none_iff, htext, h]
    exact fun hnone => nomatch hnone
  refine ⟨?_, htext⟩
  simp only [resolveName, hprimitive, Bool.or_true, if_true, ite_self]

/-- **A class name is read as the name that it is resolved to.** -/
theorem resolve_className (hraw : isClassName raw.toList = true)
    (htrim : Text.trim raw.toList = raw.toList) :
    resolve scope fullyQualified raw r = r.namedMask (resolveName scope raw fullyQualified) := by
  obtain ⟨c, hc, hchar⟩ := exists_getLast?_of_isClassName hraw
  have hlast : raw.toList.getLast? ≠ some ']' := by
    rw [hc]
    rintro ⟨⟩
    exact absurd hchar (by decide)
  have hempty : raw.isEmpty = false := by
    rw [Bool.eq_false_iff]
    intro hempty
    rw [String.isEmpty_iff.mp hempty] at hc
    cases hc
  rw [resolve_of_trim_eq htrim hlast, resolveCore, hempty, if_neg Bool.false_ne_true]
  cases hlookup : Keyword.lookup? raw with
  | some keyword =>
    obtain ⟨hname, htext⟩ := resolveName_of_lookup? hraw htrim hlookup
    rw [hname, Registry.namedMask_of_lookup? (by rw [htext, hlookup])]
  | none =>
    rw [hraw]
    rfl

/-! ## Reading the text of a resolved name -/

/-- A name that was resolved is written and read again. -/
theorem parse_toText_resolveName (hraw : IsSpelled raw.toList)
    (hscope : ∀ s ∈ scope, s.AllTexts fun text => IsSpelled text.toList) :
    QualifiedName.parse (resolveName scope raw fullyQualified).toText =
      resolveName scope raw fullyQualified := by
  have hblanks : KeepsBlanks scope fullyQualified raw := hraw.keepsBlanks hscope
  have hpath : ∀ segment ∈ namePath scope fullyQualified raw,
      QualifiedName.IsPiece segment ∧ ∀ c ∈ segment.toList, Text.isBlank c = false :=
    hraw.forall_mem_namePath hscope
  rw [toText_resolveName hblanks hraw.isClassName (allTexts_isClassName hscope),
    resolveName_eq_ofSegments hblanks (piecesOf_ne_nil hraw.isClassName)]
  refine QualifiedName.parse_intercalate (fun segment hsegment => (hpath segment hsegment).1) ?_ ?_
  · exact fun segment hsegment => .of_forall (hpath segment (List.mem_of_head? hsegment)).2
  · exact fun segment hsegment => .of_forall (hpath segment (List.mem_of_getLast? hsegment)).2

/-- A backslash in front of a name is not part of it. -/
theorem parse_backslash_append {text : String} (hfirst : Text.NoBlankFirst text.toList)
    (hlast : Text.NoBlankLast text.toList) :
    QualifiedName.parse ("\\" ++ text) = .parse text := by
  have hchars : ("\\" ++ text).toList = [] ++ '\\' :: text.toList := by simp
  have hrooted : QualifiedName.parse ("\\" ++ text) =
      .ofSegments (QualifiedName.piecesOf ("\\" ++ text)) := by
    refine QualifiedName.parse_eq ?_ ?_
    · have hnil : Text.NoBlankFirst [] := fun c hc => nomatch hc
      rw [hchars]
      exact hnil.append_cons (by decide) _
    · rw [hchars]
      exact hlast.append_cons (by decide) _
  have hpieces : QualifiedName.piecesOf ("\\" ++ text) = QualifiedName.piecesOf text :=
    QualifiedName.piecesOf_append "" text
  rw [hrooted, hpieces, QualifiedName.parse_eq hfirst hlast]

/-- A class name behind a backslash is a class name without blanks, too. -/
theorem IsSpelled.backslash_append {text : String} (h : IsSpelled text.toList)
    (hhead : text.toList.head? ≠ some '\\') : IsSpelled ("\\" ++ text).toList := by
  have hchars : ("\\" ++ text).toList = '\\' :: text.toList := by simp
  rw [hchars]
  refine ⟨?_, List.forall_mem_cons.mpr ⟨by decide, h.not_wideBlank⟩⟩
  rw [isClassName_cons_backslash hhead, h.isClassName]

/-- **A resolved name means the same everywhere.** It is read as the raw name was read in its scope:
behind a backslash or as a full name, in any scope, and outside of all scopes. The answer is that of
the word, if the name is resolved to one, and otherwise that of the class or `null`. -/
theorem resolve_contextFree (hscope : ∀ s ∈ scope, s.AllTexts fun text => IsSpelled text.toList)
    (hraw : IsSpelled raw.toList) (r : Registry) :
    let name := resolveName scope raw false
    let answer := resolve scope false raw r
    (∀ scope' fullyQualified, resolve scope' fullyQualified ("\\" ++ name.toText) r = answer) ∧
    (∀ scope', resolve scope' true name.toText r = answer) ∧
    (∀ fullyQualified, resolve none fullyQualified name.toText r = answer) ∧
    (∀ keyword, Keyword.lookup? name.toText = some keyword → answer = (keyword.mask, r)) ∧
    (Keyword.lookup? name.toText = none → answer = r.nominalMask name true) := by
  intro name answer
  have hanswer : answer = r.namedMask name := resolve_className hraw.isClassName hraw.trim_eq
  have hname : IsSpelled name.toText.toList := isSpelled_resolveName hscope hraw false
  have hrooted := hname.backslash_append (head?_toText_resolveName scope raw false)
  have hparse : QualifiedName.parse name.toText = name := parse_toText_resolveName hraw hscope
  have hparseRooted : QualifiedName.parse ("\\" ++ name.toText) = name := by
    rw [parse_backslash_append (.of_forall fun _ hc => hname.not_isBlank hc)
      (.of_forall fun _ hc => hname.not_isBlank hc), hparse]
  refine ⟨fun scope' fullyQualified => ?_, fun scope' => ?_, fun fullyQualified => ?_, ?_, ?_⟩
  · have hhead : (Text.trim ("\\" ++ name.toText).toList).head? = some '\\' := by
      rw [hrooted.trim_eq]
      simp
    rw [resolve_className hrooted.isClassName hrooted.trim_eq,
      resolveName_of_backslash hhead scope' fullyQualified, hparseRooted, hanswer]
  · have hfull : resolveName scope' name.toText true = .parse name.toText := by
      simp only [resolveName, Bool.true_or, if_true]
    rw [resolve_className hname.isClassName hname.trim_eq, hfull, hparse, hanswer]
  · have hglobal : resolveName none name.toText fullyQualified = .parse name.toText := by
      simp only [resolveName, ite_self]
    rw [resolve_className hname.isClassName hname.trim_eq, hglobal, hparse, hanswer]
  · exact fun keyword hlookup => hanswer.trans (Registry.namedMask_of_lookup? hlookup)
  · exact fun hlookup => hanswer.trans (Registry.namedMask_of_lookup?_eq_none hlookup)

/-- An import of a word of the vocabulary, in a namespace. -/
theorem resolve_contextFree_of_imported_word :
    let scope := some ((Scope.ofNamespace (some "App")).addAlias "Id" "\\INT")
    (∀ scope' fullyQualified, resolve scope' fullyQualified "\\INT" .empty =
      resolve scope false "id" .empty) ∧
    resolve scope false "id" .empty = (Keyword.mask .integer, .empty) := by
  intro scope
  have hcurrent : ∀ text ∈ (Scope.ofNamespace (some "App")).current, IsSpelled text.toList := by
    decide
  have hscope : ∀ s ∈ scope, s.AllTexts fun text => IsSpelled text.toList := by
    intro s hs
    rw [← Option.some.inj hs]
    exact ⟨hcurrent, by decide⟩
  have hname : (resolveName scope "id" false).toText = "INT" := by decide
  obtain ⟨hrooted, -, -, hword, -⟩ :=
    resolve_contextFree hscope (by decide : IsSpelled "id".toList) .empty
  rw [hname] at hrooted hword
  exact ⟨hrooted, hword .integer (by decide)⟩

end TypeExpr

end PhpTypes
