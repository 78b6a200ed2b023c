import Mathlib.Data.List.Basic
import PhpTypes.DocComment.Lookup

/-!
# Which tag documents a parameter

`Documents` says which of the tags `@param` belongs to a parameter: the first one that names it, and
without such a tag the one at its position, if that names no variable. The search goes over the tags
once and keeps a candidate in hand; `searchParam_eq` tells the two modes apart, and from there the
search is seen to find the tag that documents the parameter (`findParam_eq_some_iff`).

A tag that names a variable documents only parameters of that name, and a tag that names none
documents only the parameter at its own position. So parameters with different names never share a
tag.
-/

namespace PhpTypes

/-- The name of a parameter without the sigil. -/
def bareName (name : String) : String :=
  .ofList (Text.dropLead ['$'] name.toList)

/-- The tag names the variable, in any letter case. -/
def ParamTag.Names (tag : ParamTag) (name : String) : Prop :=
  ∃ v ∈ tag.variableName, v.foldCase = name.foldCase

namespace ParamTag

variable {tag : ParamTag} {name name' : String}

instance (tag : ParamTag) (name : String) : Decidable (tag.Names name) :=
  inferInstanceAs (Decidable (∃ v ∈ tag.variableName, v.foldCase = name.foldCase))

/-- A tag with a variable names the parameters that agree with it up to letter case. -/
theorem names_of_some {v : String} (h : tag.variableName = some v) :
    tag.Names name ↔ v.foldCase = name.foldCase := by
  simp [Names, h]

/-- A tag without a variable names no parameter. -/
theorem not_names_of_none (h : tag.variableName = none) : ¬ tag.Names name := by
  simp [Names, h]

/-- A tag names at most one variable. -/
theorem Names.foldCase_eq (h : tag.Names name) (h' : tag.Names name') :
    name.foldCase = name'.foldCase := by
  obtain ⟨v, hv, hname⟩ := h
  exact hname.symm.trans ((names_of_some hv).mp h')

end ParamTag

namespace DocComment

variable {tags : List ParamTag} {index : Nat} {name : String}

/-- Of the tags `@param`, the one at the last position given documents the parameter at position
`index` with the given name. -/
inductive Documents (tags : List ParamTag) (index : Nat) (name : String) : Nat → Prop where
  /-- The first tag that names the parameter, wherever it stands. -/
  | named {k : Nat} {tag : ParamTag} (htag : tags[k]? = some tag) (hnames : tag.Names name)
      (hfirst : ∀ j < k, ∀ earlier, tags[j]? = some earlier → ¬ earlier.Names name) :
      Documents tags index name k
  /-- If no tag names the parameter, the tag at its position, provided it names no variable. -/
  | positional {tag : ParamTag} (htag : tags[index]? = some tag)
      (hvariable : tag.variableName = none) (hnone : ∀ other ∈ tags, ¬ other.Names name) :
      Documents tags index name index

/-! ## The search -/

/-- The candidate among tags that start at the given position: the tag at the wanted position, if it
names no variable. -/
def candidate? (index position : Nat) (tags : List ParamTag) : Option ParamTag :=
  if position ≤ index then tags[index - position]?.filter (·.variableName.isNone) else none

/-- Behind its own position a parameter has no candidate. -/
theorem candidate?_of_lt {position : Nat} (h : index < position) (tags : List ParamTag) :
    candidate? index position tags = none := by
  rw [candidate?, if_neg (by omega)]

/-- The tag at the position of the parameter is its candidate if it names no variable. -/
theorem candidate?_cons (index position : Nat) (tag : ParamTag) (rest : List ParamTag) :
    candidate? index position (tag :: rest) =
      if position = index then (if tag.variableName.isNone then some tag else none)
      else candidate? index (position + 1) rest := by
  unfold candidate?
  by_cases heq : position = index
  · simp [heq, Option.filter]
  · by_cases hle : position ≤ index
    · obtain ⟨d, rfl⟩ : ∃ d, index = position + d + 1 := ⟨index - position - 1, by omega⟩
      have hhere : position + d + 1 - position = d + 1 := by omega
      have hnext : position + d + 1 - (position + 1) = d := by omega
      rw [if_pos hle, if_neg heq, if_pos (by omega), hhere, hnext, List.getElem?_cons_succ]
    · rw [if_neg hle, if_neg heq, if_neg (by omega)]

/-- A tag with the name comes before the candidate, and a later candidate before an earlier one. -/
theorem searchParam_eq (index : Nat) (name : String) (position : Nat) (found : Option ParamTag)
    (tags : List ParamTag) :
    searchParam index name position found tags =
      ((tags.find? fun tag => tag.Names name).or (candidate? index position tags)).or found := by
  induction tags generalizing position found with
  | nil => simp [searchParam, candidate?]
  | cons tag rest ih =>
    rw [searchParam, candidate?_cons]
    have hpast : candidate? index (index + 1) rest = none := candidate?_of_lt (by omega) rest
    cases hvariable : tag.variableName with
    | some v =>
      have hnames : tag.Names name ↔ v.sameFolded name = true := by
        rw [ParamTag.names_of_some hvariable, String.sameFolded, beq_iff_eq]
      dsimp only
      by_cases hname : v.sameFolded name = true
      · rw [if_pos hname, List.find?_cons_of_pos (by simpa using hnames.mpr hname)]
        rfl
      · rw [if_neg hname, List.find?_cons_of_neg (by simpa using fun h => hname (hnames.mp h)), ih]
        -- A tag that names another variable is no candidate, even at the wanted position.
        by_cases hposition : position = index
        · simp [hposition, hpast]
        · simp [hposition]
    | none =>
      have hnames : ¬ tag.Names name := ParamTag.not_names_of_none hvariable
      dsimp only
      rw [List.find?_cons_of_neg (by simpa using hnames), ih]
      by_cases hposition : position = index
      · simp [hposition, hpast]
      · simp [hposition]

/-- The search prefers a tag that names the parameter to the one at its position. -/
theorem findParam_eq (doc : DocComment) (index : Nat) (name : String) :
    findParam (some doc) index name =
      (doc.paramTags.find? fun tag => tag.Names (bareName name)).or
        (doc.paramTags[index]?.filter (·.variableName.isNone)) := by
  show searchParam index (bareName name) 0 none doc.paramTags = _
  rw [searchParam_eq, Option.or_none, candidate?, if_pos (Nat.zero_le index), Nat.sub_zero]

/-! ## The tag that documents a parameter -/

/-- At most one tag documents a parameter. -/
theorem Documents.unique {k l : Nat} (h : Documents tags index name k)
    (h' : Documents tags index name l) : k = l := by
  cases h with
  | named htag hnames hfirst =>
    cases h' with
    | named htag' hnames' hfirst' =>
      rcases Nat.lt_trichotomy k l with hlt | heq | hlt
      · exact absurd hnames (hfirst' k hlt _ htag)
      · exact heq
      · exact absurd hnames' (hfirst l hlt _ htag')
    | positional _ _ hnone => exact absurd hnames (hnone _ (List.mem_of_getElem? htag))
  | positional _ _ hnone =>
    cases h' with
    | named htag' hnames' _ => exact absurd hnames' (hnone _ (List.mem_of_getElem? htag'))
    | positional => rfl

/-- The search finds the tag that documents the parameter. -/
theorem Documents.findParam_eq {doc : DocComment} {k : Nat}
    (h : Documents doc.paramTags index (bareName name) k) :
    findParam (some doc) index name = doc.paramTags[k]? := by
  rw [DocComment.findParam_eq]
  cases h with
  | named htag hnames hfirst =>
    obtain ⟨hlt, rfl⟩ := List.getElem?_eq_some_iff.mp htag
    have hfind : doc.paramTags.find? (fun tag => tag.Names (bareName name)) =
        some doc.paramTags[k] := by
      refine List.find?_eq_some_iff_getElem.mpr ⟨by simpa using hnames, k, hlt, rfl, fun j hj => ?_⟩
      simpa using hfirst j hj _ (List.getElem?_eq_getElem (Nat.lt_trans hj hlt))
    rw [hfind, htag, Option.some_or]
  | positional htag hvariable hnone =>
    have hfind : doc.paramTags.find? (fun tag => tag.Names (bareName name)) = none :=
      List.find?_eq_none.mpr fun tag htag => by simpa using hnone tag htag
    rw [hfind, htag, Option.none_or]
    simp [hvariable]

/-- What the search finds documents the parameter. -/
theorem exists_documents {doc : DocComment} {tag : ParamTag}
    (h : findParam (some doc) index name = some tag) :
    ∃ k, Documents doc.paramTags index (bareName name) k ∧ doc.paramTags[k]? = some tag := by
  rw [findParam_eq] at h
  cases hfind : doc.paramTags.find? fun tag => tag.Names (bareName name) with
  | some found =>
    rw [hfind, Option.some_or] at h
    obtain rfl := Option.some.inj h
    obtain ⟨hnames, k, hlt, hget, hearlier⟩ := List.find?_eq_some_iff_getElem.mp hfind
    have htag : doc.paramTags[k]? = some found := List.getElem?_eq_some_iff.mpr ⟨hlt, hget⟩
    refine ⟨k, .named htag (by simpa using hnames) fun j hj earlier hj' => ?_, htag⟩
    obtain ⟨hlt', rfl⟩ := List.getElem?_eq_some_iff.mp hj'
    simpa using hearlier j hj
  | none =>
    rw [hfind, Option.none_or, Option.filter_eq_some_iff] at h
    obtain ⟨htag, hvariable⟩ := h
    refine ⟨index, .positional htag (by simpa using hvariable) fun other hother => ?_, htag⟩
    simpa using List.find?_eq_none.mp hfind other hother

/-- Exactly the documenting tag is found. -/
theorem findParam_eq_some_iff {doc : DocComment} {tag : ParamTag} :
    findParam (some doc) index name = some tag ↔
      ∃ k, Documents doc.paramTags index (bareName name) k ∧ doc.paramTags[k]? = some tag := by
  refine ⟨exists_documents, ?_⟩
  rintro ⟨k, hdocuments, htag⟩
  rw [hdocuments.findParam_eq, htag]

/-- Two parameters with different names are documented by different tags. -/
theorem Documents.ne {index' k l : Nat} {name' : String} (h : Documents tags index name k)
    (h' : Documents tags index' name' l) (hindex : index ≠ index')
    (hname : name.foldCase ≠ name'.foldCase) : k ≠ l := by
  rintro rfl
  cases h with
  | named htag hnames _ =>
    cases h' with
    | named htag' hnames' _ =>
      obtain rfl := Option.some.inj (htag.symm.trans htag')
      exact hname (hnames.foldCase_eq hnames')
    | positional htag' hvariable _ =>
      obtain rfl := Option.some.inj (htag.symm.trans htag')
      exact ParamTag.not_names_of_none hvariable hnames
  | positional htag hvariable _ =>
    cases h' with
    | named htag' hnames' _ =>
      obtain rfl := Option.some.inj (htag.symm.trans htag')
      exact ParamTag.not_names_of_none hvariable hnames'
    | positional => exact hindex rfl

/-- Tags other than `@param` are not counted. -/
theorem findParam_eq_of_other {doc : DocComment} {before after : List DocTag} {o : OtherTag}
    (h : doc.tags = before ++ .other o :: after) (index : Nat) (name : String) :
    findParam (some doc) index name =
      findParam (some { doc with tags := before ++ after }) index name := by
  have hparams : doc.paramTags = ({ doc with tags := before ++ after } : DocComment).paramTags := by
    simp only [paramTags, h, List.filterMap_append]
    rw [List.filterMap_cons_none rfl]
  rw [findParam_eq, findParam_eq, hparams]

/-- **The search for the tag of a parameter is exact.** It finds the tag that documents the
parameter and nothing else; tags other than `@param` can be added or removed anywhere; and no tag is
found for two parameters if all names differ in more than letter case and a leading `$`. Tags are
told apart by their positions, since two of them may read the same. -/
theorem findParam_exact (doc : DocComment) :
    (∀ index name tag, findParam (some doc) index name = some tag ↔
      ∃ k, Documents doc.paramTags index (bareName name) k ∧ doc.paramTags[k]? = some tag) ∧
    (∀ index name k l, Documents doc.paramTags index name k →
      Documents doc.paramTags index name l → k = l) ∧
    (∀ before o after, doc.tags = before ++ .other o :: after → ∀ index name,
      findParam (some doc) index name =
        findParam (some { doc with tags := before ++ after }) index name) ∧
    (∀ names : List String,
      names.Pairwise (fun a b => (bareName a).foldCase ≠ (bareName b).foldCase) →
      ∀ i j a b k l, names[i]? = some a → names[j]? = some b → i ≠ j →
        Documents doc.paramTags i (bareName a) k → Documents doc.paramTags j (bareName b) l →
        k ≠ l) := by
  refine ⟨fun index name tag => findParam_eq_some_iff, fun index name k l => Documents.unique,
    fun before o after h => findParam_eq_of_other h, ?_⟩
  intro names hnames i j a b k l ha hb hne hk hl
  obtain ⟨hi, rfl⟩ := List.getElem?_eq_some_iff.mp ha
  obtain ⟨hj, rfl⟩ := List.getElem?_eq_some_iff.mp hb
  rw [List.pairwise_iff_getElem] at hnames
  refine hk.ne hl hne ?_
  rcases Nat.lt_or_gt_of_ne hne with hlt | hlt
  · exact hnames i j hi hj hlt
  · exact (hnames j i hj hi hlt).symm

/-- Two parameters, of which the second one is named by the second tag `@param` and the first one is
documented by its position. -/
theorem findParam_exact_of_positional_and_named :
    let first : ParamTag := ⟨none, some "int", "", false⟩
    let second : ParamTag := ⟨some "B", some "string", "", false⟩
    let doc : DocComment :=
      ⟨"", [.other ⟨"return", "void"⟩, .param first, .other ⟨"throws", ""⟩, .param second]⟩
    ["$a", "$b"].Pairwise (fun a b => (bareName a).foldCase ≠ (bareName b).foldCase) ∧
      ∃ k l, Documents doc.paramTags 0 (bareName "$a") k ∧ doc.paramTags[k]? = some first ∧
        Documents doc.paramTags 1 (bareName "$b") l ∧ doc.paramTags[l]? = some second ∧ k ≠ l := by
  intro first second doc
  have hnames : ["$a", "$b"].Pairwise fun a b => (bareName a).foldCase ≠ (bareName b).foldCase := by
    decide
  obtain ⟨hfind, -, -, hne⟩ := findParam_exact doc
  have ha : findParam (some doc) 0 "$a" = some first := by decide
  have hb : findParam (some doc) 1 "$b" = some second := by decide
  obtain ⟨k, hk, hfirst⟩ := (hfind 0 "$a" first).mp ha
  obtain ⟨l, hl, hsecond⟩ := (hfind 1 "$b" second).mp hb
  have hkl : k ≠ l := hne ["$a", "$b"] hnames 0 1 "$a" "$b" k l rfl rfl (by decide) hk hl
  exact ⟨hnames, k, l, hk, hfirst, hl, hsecond, hkl⟩

end DocComment

end PhpTypes
