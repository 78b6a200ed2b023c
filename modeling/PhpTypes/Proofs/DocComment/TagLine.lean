import PhpTypes.Proofs.DocComment.Composition
import PhpTypes.Proofs.DocComment.ReturnType
import PhpTypes.Proofs.TypeExpr.Union

/-!
# Tags as they are written

A tag `@param` is written with a type, a variable and a description, a tag `@return` with a type and
a description, with blanks between the parts. Reading cuts such a line behind the name of the tag,
behind the type and behind the variable, each time at the first blank that does not belong to the
part in front (`readLine?_tag`, `firstType_append`, `readVariable?_chars`). So the parts are read
back as they were written (`parse_written`).
-/

namespace PhpTypes.DocComment

open Text (isBlank trim)

/-! ## Parts of a line -/

/-- Blanks that set off two parts of a line. -/
structure Gap where
  chars : List Char
  ne_nil : chars ≠ []
  blank : ∀ c ∈ chars, isBlank c = true
  oneLine : '\n' ∉ chars

/-- A type as it stands in front of other text: its brackets are balanced, and all of its blanks are
inside brackets. -/
structure TypeText where
  chars : List Char
  ne_nil : chars ≠ []
  balanced : TypeExpr.Balanced chars
  blanks : ∀ before c after, chars = before ++ c :: after → isBlank c = true →
    0 < TypeExpr.depth before
  oneLine : '\n' ∉ chars

/-- Whether a character is punctuation that may follow a variable in running text. -/
def isPunctuation (c : Char) : Bool :=
  c == ',' || c == '.' || c == ')'

/-- The name of a variable, without sigils. -/
structure VariableName where
  chars : List Char
  ne_nil : chars ≠ []
  noBlank : ∀ c ∈ chars, isBlank c = false
  noPunctuation : ∀ c, chars.getLast? = some c → isPunctuation c = false

/-- What stands in front of the name of a variable. -/
inductive Sigil where
  | value
  | reference
  | variadic
  | variadicReference
  deriving DecidableEq, Repr

/-- The sigil as written. -/
def Sigil.chars : Sigil → List Char
  | value => ['$']
  | reference => ['&', '$']
  | variadic => ['.', '.', '.', '$']
  | variadicReference => ['&', '.', '.', '.', '$']

/-- Whether the sigil holds dots. -/
def Sigil.isVariadic (sigil : Sigil) : Bool :=
  sigil.chars.contains '.'

/-- A description without blanks around it; it may be empty. -/
structure Description where
  chars : List Char
  trimmed : trim chars = chars
  oneLine : '\n' ∉ chars

/-! ## Cutting at blanks -/

section Cutting

variable {s t : List Char}

/-- The text is empty or starts with a blank. -/
def StopsWord (text : List Char) : Prop :=
  ∀ c, text.head? = some c → isBlank c = true

/-- A word is cut off in front of a blank. -/
theorem cut_word (hs : ∀ c ∈ s, isBlank c = false) (ht : StopsWord t) :
    (s ++ t).takeWhile (!isBlank ·) = s ∧ (s ++ t).dropWhile (!isBlank ·) = t :=
  Text.takeWhile_and_dropWhile_eq_iff.mpr ⟨rfl, by simpa using hs, by simpa [StopsWord] using ht⟩

/-- A gap ends a word. -/
theorem Gap.stopsWord (gap : Gap) (t : List Char) : StopsWord (gap.chars ++ t) := by
  intro c hc
  obtain ⟨first, rest, hgap⟩ := List.exists_cons_of_ne_nil gap.ne_nil
  rw [hgap] at hc
  obtain rfl := Option.some.inj hc
  exact gap.blank _ (hgap ▸ List.mem_cons_self)

/-- Blanks at the end of what follows a word do not matter. -/
theorem StopsWord.trimEnd (h : StopsWord t) : StopsWord (Text.trimEnd t) :=
  fun c hc => h c (Text.head?_trimEnd hc)

/-- A line that opens a tag. -/
theorem readLine?_tag {name : List Char} (hne : name ≠ [])
    (hname : ∀ c ∈ name, isBlank c = false) (gap : Gap) (body : List Char) :
    readLine? ('@' :: (name ++ (gap.chars ++ body))) = some (.tag name (trim body)) := by
  have hat : isBlank '@' = false := by decide
  have htrim : trim ('@' :: (name ++ (gap.chars ++ body))) =
      '@' :: (name ++ Text.trimEnd (gap.chars ++ body)) := by
    rw [Text.trim_cons_of_not_blank hat, Text.trimEnd_append (.of_forall hname)]
  have hbody : trim (Text.trimEnd (gap.chars ++ body)) = trim body := by
    rw [Text.trim_trimEnd, Text.trim_append_of_blank gap.blank]
  have hline : undecorate ('@' :: (name ++ (gap.chars ++ body))) =
      '@' :: (name ++ Text.trimEnd (gap.chars ++ body)) := by
    rw [undecorate, htrim, List.dropWhile_cons_of_neg (by decide), ← htrim, Text.trim_trim]
  obtain ⟨hfirst, hrest⟩ := cut_word hname (gap.stopsWord body).trimEnd
  rw [readLine?, hline, Line.ofText?, hfirst, hrest, hbody]
  cases name with
  | nil => exact absurd rfl hne
  | cons c rest => rfl

end Cutting

/-! ## Types -/

namespace TypeText

variable (type : TypeText)

/-- The conditions on a type, decided by looking for its end. -/
def ofCutType (chars : List Char) (hne : chars ≠ []) (hbalanced : TypeExpr.Balanced chars)
    (hcut : (TypeExpr.cutType 0 chars).1 = chars) (honeLine : '\n' ∉ chars) : TypeText where
  chars
  ne_nil := hne
  balanced := hbalanced
  blanks before c after h hblank :=
    Int.zero_add (TypeExpr.depth before) ▸
      (TypeExpr.cutType_fst_eq_iff.mp hcut).blanks before c after h hblank
  oneLine := honeLine

/-- A type does not start with a blank. -/
theorem noBlankFirst : Text.NoBlankFirst type.chars := by
  intro c hc
  obtain ⟨rest, hchars⟩ := List.head?_eq_some_iff.mp hc
  refine Bool.eq_false_iff.mpr fun hblank => ?_
  exact absurd (type.blanks [] c rest hchars hblank) (by decide)

/-- A type does not end with a blank. -/
theorem noBlankLast : Text.NoBlankLast type.chars := by
  intro c hc
  obtain ⟨before, hchars⟩ := List.getLast?_eq_some_iff.mp hc
  refine Bool.eq_false_iff.mpr fun hblank => ?_
  -- The depth in front of a blank at the end would be that of the whole type.
  have hdepth : TypeExpr.depth [c] = 0 := by
    rw [TypeExpr.depth_cons, TypeExpr.depthAfter_of_isPlain (TypeExpr.isPlain_of_isBlank hblank)]
    rfl
  have hbefore := type.blanks before c [] hchars hblank
  have hwhole := type.balanced.depth_eq
  rw [hchars, TypeExpr.depth_append, hdepth] at hwhole
  omega

end TypeText

/-- Cutting off a type loses no character. -/
theorem cutType_append (d : Int) (text : List Char) :
    (TypeExpr.cutType d text).1 ++ (TypeExpr.cutType d text).2 = text := by
  induction text generalizing d with
  | nil => rfl
  | cons c rest ih =>
    rw [TypeExpr.cutType]
    split
    · rfl
    · exact congrArg (c :: ·) (ih _)

/-- A type is cut off behind its last bracket, wherever it holds blanks. -/
theorem firstType_append (type : TypeText) {rest : List Char} (hrest : StopsWord rest) :
    TypeExpr.firstType (type.chars ++ rest) = (type.chars, rest) := by
  have hleading : TypeExpr.LeadingTypeFrom 0 type.chars (type.chars ++ rest) := by
    refine ⟨fun before c after h hblank => ?_, rest, rfl, fun c hc => ⟨hrest c hc, ?_⟩⟩
    · rw [Int.zero_add]
      exact type.blanks before c after h hblank
    · exact Int.le_of_eq (by rw [type.balanced.depth_eq, Int.add_zero])
  have hfirst := TypeExpr.cutType_fst_eq_iff.mpr hleading
  have hsecond := cutType_append 0 (type.chars ++ rest)
  rw [hfirst] at hsecond
  exact Prod.ext hfirst (List.append_cancel_left hsecond)

/-! ## Variables -/

/-- The text starts like a variable. -/
def StartsAsVariable (text : List Char) : Prop :=
  ['$'] <+: text ∨ ['&'] <+: text ∨ "...".toList <+: text

instance (text : List Char) : Decidable (StartsAsVariable text) :=
  inferInstanceAs (Decidable (_ ∨ _ ∨ _))

/-- Whatever follows, a text keeps starting like a variable. -/
theorem StartsAsVariable.of_prefix {s t : List Char} (h : StartsAsVariable s) (hst : s <+: t) :
    StartsAsVariable t :=
  h.imp (·.trans hst) (Or.imp (·.trans hst) (·.trans hst))

/-- Blanks behind a text do not make it a variable. -/
theorem startsAsVariable_append_iff {s t : List Char} (ht : StopsWord t) :
    StartsAsVariable (s ++ t) ↔ StartsAsVariable s := by
  rw [StartsAsVariable, Text.prefix_append_iff (by decide) ht,
    Text.prefix_append_iff (by decide) ht, Text.prefix_append_iff (by decide) ht, StartsAsVariable]

/-- The variable as written. -/
def variableChars (sigil : Sigil) (name : VariableName) : List Char :=
  sigil.chars ++ name.chars

/-- A variable is written without blanks. -/
theorem noBlank_variableChars (sigil : Sigil) (name : VariableName) :
    ∀ c ∈ variableChars sigil name, isBlank c = false := by
  refine List.forall_mem_append.mpr ⟨?_, name.noBlank⟩
  cases sigil <;> decide

/-- A variable is read back with its name, and its sigil tells whether it is variadic. -/
theorem readVariable?_chars (sigil : Sigil) (name : VariableName) :
    readVariable? (variableChars sigil name) = some (name.chars, sigil.isVariadic) := by
  have hnoBlank := noBlank_variableChars sigil name
  have hword : (Text.firstWord (variableChars sigil name)).1 = variableChars sigil name := by
    rw [Text.firstWord, Text.trimStart_of_head? (Text.NoBlankFirst.of_forall hnoBlank)]
    have hcut := (cut_word hnoBlank (t := []) nofun).1
    rwa [List.append_nil] at hcut
  have hkept : Text.dropEndWhile (fun c => c == ',' || c == '.' || c == ')') name.chars =
      name.chars := Text.dropEndWhile_of_getLast? name.noPunctuation
  have hnamed : ['$'].isPrefixOf? ('$' :: name.chars) = some name.chars := rfl
  obtain ⟨c, rest, hchars⟩ := List.exists_cons_of_ne_nil name.ne_nil
  rw [readVariable?, hword]
  -- Whatever the sigil, `$` and the name are left of the word.
  cases sigil <;>
  · show (['$'].isPrefixOf? ('$' :: name.chars)).bind _ = _
    rw [hnamed, Option.bind_some, hkept, hchars]
    rfl

/-- A text that does not start like a variable starts with none. -/
theorem readVariable?_eq_none {text : List Char} (hblank : Text.NoBlankFirst text)
    (h : ¬ StartsAsVariable text) : readVariable? text = none := by
  have hword : (Text.firstWord text).1 = text.takeWhile (!isBlank ·) := by
    rw [Text.firstWord, Text.trimStart_of_head? hblank]
  have hnone : ¬ StartsAsVariable (text.takeWhile (!isBlank ·)) :=
    fun hstarts => h (hstarts.of_prefix (List.takeWhile_prefix _))
  obtain ⟨hvalue, hothers⟩ := not_or.mp hnone
  obtain ⟨hreference, hdots⟩ := not_or.mp hothers
  rw [readVariable?, hword, Text.dropLead_of_not_prefix hreference, Text.isPrefixOf?_eq_none hdots]
  show (['$'].isPrefixOf? (text.takeWhile (!isBlank ·))).bind _ = none
  rw [Text.isPrefixOf?_eq_none hvalue]
  rfl

/-! ## Tags -/

/-- Without further lines, a text stays as it is. -/
theorem continued_nil (text : List Char) : continued text [] = .ofList text := by
  cases text with
  | nil => rfl
  | cons c rest => rw [continued, List.isEmpty_cons, if_neg Bool.false_ne_true, Text.join_singleton]

/-- A tag that is not called `param` is kept with its name and its body. -/
theorem toTag_of_ne {name : List Char} (h : name ≠ "param".toList) (body : List Char) :
    Section.toTag ⟨name, body, []⟩ = .other ⟨.ofList name, .ofList body⟩ := by
  rw [Section.toTag, if_neg h, continued_nil]

/-- A tag `@param` is read into its parts. -/
theorem toTag_param (body : List Char) :
    Section.toTag ⟨"param".toList, body, []⟩ = .param (readParam body []) :=
  if_pos rfl

/-- The type of a tag `@return` that stands alone. -/
theorem returnType?_singleton {summary name : String}
    (hname : name.sameFolded "return" = true) (body : String) :
    returnType? ⟨summary, [.other ⟨name, body⟩]⟩ =
      match (TypeExpr.firstType body.toList).1 with
      | [] => none
      | type => some (.ofList type) := by
  have htag : tag? ⟨summary, [.other ⟨name, body⟩]⟩ "return" = some ⟨name, body⟩ := by
    simp [tag?, DocTag.other?, hname]
  rw [returnType?, htag]
  rfl

/-- The parts that a tag `@param` and a tag `@return` have in common, in a comment that holds
nothing else. -/
structure TypedTag where
  before : List Char
  before_blank : ∀ c ∈ before, isBlank c = true
  typeGap : Gap
  type : TypeText
  descriptionGap : Gap
  description : Description
  after : List Char
  after_blank : ∀ c ∈ after, isBlank c = true

namespace TypedTag

variable (tag : TypedTag)

/-- The description with the blanks in front of it. -/
def setOff : List Char :=
  tag.descriptionGap.chars ++ tag.description.chars

/-- The comment as written, with a text between the type and the description. -/
def comment (name middle : List Char) : String :=
  .ofList ("/**".toList ++ (tag.before ++ ('@' :: (name ++ (tag.typeGap.chars ++
    (tag.type.chars ++ (middle ++ tag.setOff))))) ++ tag.after) ++ "*/".toList)

/-- The characters of a comment with one tag, from the opening delimiter to the closing one. -/
theorem toList_comment (name middle : List Char) : (tag.comment name middle).toList =
    "/**".toList ++ (tag.before ++ ('@' :: (name ++ (tag.typeGap.chars ++
      (tag.type.chars ++ (middle ++ tag.setOff))))) ++ tag.after) ++ "*/".toList :=
  String.toList_ofList

/-- Without the blanks around it, the description is left. -/
theorem trim_setOff : trim tag.setOff = tag.description.chars := by
  rw [setOff, Text.trim_append_of_blank tag.descriptionGap.blank, tag.description.trimmed]

/-- A type in front is kept by trimming. -/
theorem trim_body (rest : List Char) :
    trim (tag.type.chars ++ rest) = tag.type.chars ++ Text.trimEnd rest :=
  Text.trim_append tag.type.ne_nil tag.type.noBlankFirst tag.type.noBlankLast rest

/-- A comment in one line is read as a single tag. -/
theorem parse_comment {name middle : List Char} (hne : name ≠ [])
    (hname : ∀ c ∈ name, isBlank c = false) (hmiddle : '\n' ∉ middle) :
    parse (tag.comment name middle) = ⟨"", [Section.toTag
      ⟨name, tag.type.chars ++ Text.trimEnd (middle ++ tag.setOff), []⟩]⟩ := by
  have honeLine : '\n' ∉ '@' :: (name ++ (tag.typeGap.chars ++
      (tag.type.chars ++ (middle ++ tag.setOff)))) := by
    have hnewline : '\n' ∉ name := fun h => absurd (hname _ h) (by decide)
    simp [setOff, hnewline, tag.typeGap.oneLine, tag.type.oneLine, hmiddle,
      tag.descriptionGap.oneLine, tag.description.oneLine]
  rw [parse_eq, toList_comment, lines_delimited, carried_append_of_blank tag.after_blank,
    carried_of_blank_append tag.before_blank, carried_of_not_mem honeLine,
    readLine?_tag hne hname, trim_body]
  rfl

/-- A comment with a tag `@return`. -/
def returnComment : String :=
  tag.comment "return".toList []

/-- The type of a tag `@return` is read back as it was written. -/
theorem returnType?_returnComment :
    (parse tag.returnComment).returnType? = some (.ofList tag.type.chars) := by
  have hname : (String.ofList "return".toList).sameFolded "return" = true := by decide
  have hstops : StopsWord (Text.trimEnd tag.setOff) := (tag.descriptionGap.stopsWord _).trimEnd
  obtain ⟨c, rest, htype⟩ := List.exists_cons_of_ne_nil tag.type.ne_nil
  rw [returnComment, parse_comment tag (by decide) (by decide) List.not_mem_nil, List.nil_append,
    toTag_of_ne (by decide), returnType?_singleton hname, String.toList_ofList,
    firstType_append tag.type hstops, htype]

end TypedTag

/-- A tag `@param`, with a variable between the type and the description. -/
structure ParamLine extends TypedTag where
  not_startsAsVariable : ¬ StartsAsVariable type.chars
  variableGap : Gap
  sigil : Sigil
  name : VariableName

namespace ParamLine

variable (p : ParamLine)

/-- The variable with the blanks in front of it. -/
def middle : List Char :=
  p.variableGap.chars ++ variableChars p.sigil p.name

/-- The comment as written. -/
def paramComment : String :=
  p.comment "param".toList p.middle

/-- What the comment says. -/
def tag : ParamTag where
  variableName := some (.ofList p.name.chars)
  type := some (.ofList p.type.chars)
  description := .ofList p.description.chars
  variadic := p.sigil.isVariadic

/-- Behind the type comes a gap. -/
theorem middle_stopsWord : StopsWord (Text.trimEnd (p.middle ++ p.setOff)) := by
  rw [middle, List.append_assoc]
  exact (p.variableGap.stopsWord _).trimEnd

/-- Behind the type, the variable is followed by the description. -/
theorem trim_middle_append :
    trim (p.middle ++ p.setOff) = variableChars p.sigil p.name ++ Text.trimEnd p.setOff := by
  have hnoBlank := noBlank_variableChars p.sigil p.name
  have hne : variableChars p.sigil p.name ≠ [] :=
    List.append_ne_nil_of_right_ne_nil _ p.name.ne_nil
  rw [middle, List.append_assoc, Text.trim_append_of_blank p.variableGap.blank,
    Text.trim_append hne (.of_forall hnoBlank) (.of_forall hnoBlank)]

/-- What stands behind the name of the tag. -/
def body : List Char :=
  p.type.chars ++ Text.trimEnd (p.middle ++ p.setOff)

/-- The type in front is not mistaken for a variable. -/
theorem readVariable?_body : readVariable? p.body = none := by
  have hhead : p.body.head? = p.type.chars.head? := by
    rw [body, List.head?_append, Option.or_of_isSome (List.isSome_head?.mpr p.type.ne_nil)]
  refine readVariable?_eq_none (fun c hc => p.type.noBlankFirst c (hhead ▸ hc)) ?_
  rw [body, startsAsVariable_append_iff p.middle_stopsWord]
  exact p.not_startsAsVariable

/-- The parts of the tag are read back. -/
theorem readParam_body : readParam p.body [] = p.tag := by
  have hcut : (if (readVariable? p.body).isSome then ([], p.body) else TypeExpr.firstType p.body) =
      (p.type.chars, Text.trimEnd (p.middle ++ p.setOff)) := by
    rw [p.readVariable?_body, body, firstType_append p.type p.middle_stopsWord]
    rfl
  have htype : p.type.chars.isEmpty = false := by simp [p.type.ne_nil]
  have hrest : Text.trimStart (Text.trimEnd (p.middle ++ p.setOff)) =
      variableChars p.sigil p.name ++ Text.trimEnd p.setOff := p.trim_middle_append
  have hstops : StopsWord (Text.trimEnd p.setOff) := (p.descriptionGap.stopsWord _).trimEnd
  obtain ⟨hword, hbehind⟩ := cut_word (noBlank_variableChars p.sigil p.name) hstops
  unfold readParam
  simp only [hcut, htype, hrest, hword, hbehind, readVariable?_chars, Text.trim_trimEnd,
    TypedTag.trim_setOff, continued_nil]
  rfl

/-- A comment with a tag `@param` alone is read as that tag. -/
theorem parse_paramComment : parse p.paramComment = ⟨"", [.param p.tag]⟩ := by
  have hmiddle : '\n' ∉ p.middle := by
    have hvariable : '\n' ∉ variableChars p.sigil p.name :=
      fun h => absurd (noBlank_variableChars p.sigil p.name _ h) (by decide)
    simp [middle, p.variableGap.oneLine, hvariable]
  rw [paramComment, TypedTag.parse_comment _ (by decide) (by decide) hmiddle, toTag_param, ← body,
    readParam_body]

end ParamLine

/-- **Tags are read as they were written.** A type ends where its brackets are closed, a variable
stands behind its sigil up to the next blank, and the rest is the description. -/
theorem parse_written :
    (∀ p : ParamLine, parse p.paramComment = ⟨"", [.param p.tag]⟩) ∧
      ∀ tag : TypedTag, (parse tag.returnComment).returnType? = some (.ofList tag.type.chars) :=
  ⟨ParamLine.parse_paramComment, TypedTag.returnType?_returnComment⟩

/-- A type with blanks in nested brackets, in front of a variable and in front of a description. -/
theorem parse_written_of_shape :
    parse "/**  @param array{a: int, b: list< A >}\t&...$rows  by, name */" = ⟨"",
      [.param ⟨some "rows", some "array{a: int, b: list< A >}", "by, name", true⟩]⟩ ∧
    (parse "/**  @return array{a: int, b: list< A >}  by, name */").returnType? =
      some "array{a: int, b: list< A >}" := by
  let space : Gap := ⟨[' '], by decide, by decide, by decide⟩
  let spaces : Gap := ⟨[' ', ' '], by decide, by decide, by decide⟩
  let tab : Gap := ⟨['\t'], by decide, by decide, by decide⟩
  let type : TypeText := .ofCutType "array{a: int, b: list< A >}".toList (by decide) (by decide)
    (by decide) (by decide)
  let tag : TypedTag := ⟨spaces.chars, by decide, space, type, spaces,
    ⟨"by, name".toList, by decide, by decide⟩, space.chars, by decide⟩
  have hlast : ∀ c, "rows".toList.getLast? = some c → isPunctuation c = false := by
    intro c hc
    obtain rfl := Option.some.inj hc
    decide
  let rows : VariableName := ⟨"rows".toList, by decide, by decide, hlast⟩
  let p : ParamLine := ⟨tag, by decide, tab, .variadicReference, rows⟩
  have hparam : p.paramComment =
      "/**  @param array{a: int, b: list< A >}\t&...$rows  by, name */" := rfl
  have hreturn : tag.returnComment =
      "/**  @return array{a: int, b: list< A >}  by, name */" := rfl
  exact ⟨(congrArg parse hparam).symm.trans (parse_written.1 p),
    (congrArg (fun comment => (parse comment).returnType?) hreturn).symm.trans
      (parse_written.2 tag)⟩

end PhpTypes.DocComment
