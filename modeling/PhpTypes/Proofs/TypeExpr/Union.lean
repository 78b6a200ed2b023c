import PhpTypes.Proofs.TypeExpr.Balance

/-!
# Unions that are written out

A union is a tree: its members are atoms, nullable members and groups, and a group holds a union
again. `Written` says which texts write it. Blanks may stand around each member at any depth.
Splitting a text that writes a union gives the union laid flat (`splitAlternatives_of_written`), so
neither the nesting nor the blanks leave a trace, and neither do the full stops and commas behind.
-/

namespace PhpTypes.TypeExpr

/-! ## Trees -/

/-- A text that is nothing but one alternative. -/
structure Atom where
  text : List Char
  ne_nil : text ≠ [] := by decide
  trim_eq : Text.trim text = text := by decide
  balanced : Balanced text := by decide
  bars : BarsEnclosed text := by decide
  noMark : text.head? ≠ some '?' := by decide
  noGroup : ¬ IsGroup text := by decide

mutual

/-- A member of a union. -/
inductive UnionMember where
  | atom (a : Atom)
  | nullable (inner : UnionMember)
  | group (members : UnionExpr)

/-- One or more members with bars between them. -/
inductive UnionExpr where
  | single (member : UnionMember)
  | cons (member : UnionMember) (others : UnionExpr)

end

mutual

/-- The alternatives that the member stands for. -/
def UnionMember.flatten : UnionMember → List (List Char)
  | .atom a => [a.text]
  | .nullable inner => inner.flatten ++ ["null".toList]
  | .group members => members.flatten

/-- The alternatives of the members from left to right. -/
def UnionExpr.flatten : UnionExpr → List (List Char)
  | .single member => member.flatten
  | .cons member others => member.flatten ++ others.flatten

end

mutual

/-- The text writes the member. -/
inductive UnionMember.Written : UnionMember → List Char → Prop
  | atom (a : Atom) : (UnionMember.atom a).Written a.text
  | nullable {inner : UnionMember} {text : List Char} (h : inner.Written text) :
      (UnionMember.nullable inner).Written ('?' :: text)
  | group {members : UnionExpr} {text : List Char} (h : members.Written text) :
      (UnionMember.group members).Written ('(' :: text ++ [')'])
  | padded {member : UnionMember} {before text after : List Char}
      (hbefore : ∀ c ∈ before, Text.isBlank c = true)
      (hafter : ∀ c ∈ after, Text.isBlank c = true) (h : member.Written text) :
      member.Written (before ++ text ++ after)

/-- The text writes the members with bars between them. -/
inductive UnionExpr.Written : UnionExpr → List Char → Prop
  | single {member : UnionMember} {text : List Char} (h : member.Written text) :
      (UnionExpr.single member).Written text
  | cons {member : UnionMember} {others : UnionExpr} {text rest : List Char}
      (hmember : member.Written text) (hothers : others.Written rest) :
      (UnionExpr.cons member others).Written (text ++ '|' :: rest)

end

/-! ## Blanks -/

/-- Blanks structure no union. -/
theorem isPlain_of_isBlank {c : Char} (h : Text.isBlank c = true) : isPlain c = true := by
  cases hplain : isPlain c with
  | true => rfl
  | false =>
    simp only [isPlain, isOpening, isClosing, Bool.and_eq_false_iff, Bool.not_eq_false',
      Bool.or_eq_true, beq_iff_eq, bne_eq_false_iff_eq] at hplain
    rcases hplain with ((((rfl | rfl) | rfl) | rfl) | (((rfl | rfl) | rfl) | rfl)) | rfl <;>
      exact absurd h (by decide)

/-- Blanks are gone over without a cut. -/
theorem PassedOver.of_blank {d : Int} {text : List Char}
    (h : ∀ c ∈ text, Text.isBlank c = true) : PassedOver d text :=
  .of_isPlain fun c hc => isPlain_of_isBlank (h c hc)

/-- Blanks are balanced. -/
theorem Balanced.of_blank {text : List Char} (h : ∀ c ∈ text, Text.isBlank c = true) :
    Balanced text :=
  .of_isPlain fun c hc => isPlain_of_isBlank (h c hc)

/-- What is expanded is the text without the blanks around it. -/
theorem expand_congr {s t : List Char} (h : Text.trim s = Text.trim t) : expand s = expand t := by
  cases htrim : Text.trim t with
  | nil => rw [expand_of_blank (h.trans htrim), expand_of_blank htrim]
  | cons c rest =>
    by_cases hmark : c = '?'
    · rw [hmark] at htrim
      rw [expand_of_mark (h.trans htrim), expand_of_mark htrim]
    · have hmark' : (Text.trim t).head? ≠ some '?' := by simpa [htrim] using hmark
      cases hgroup : group? (Text.trim t) with
      | some inner => rw [expand_of_group hgroup, expand_of_group (h ▸ hgroup)]
      | none =>
        have hne : Text.trim t ≠ [] := by simp [htrim]
        rw [expand_of_plain hne hmark' hgroup,
          expand_of_plain (h ▸ hne) (h ▸ hmark') (h ▸ hgroup), h]

/-- Blanks around a part do not change what it expands to. -/
theorem expand_append_append {before after : List Char}
    (hbefore : ∀ c ∈ before, Text.isBlank c = true) (hafter : ∀ c ∈ after, Text.isBlank c = true)
    (text : List Char) : expand (before ++ text ++ after) = expand text :=
  expand_congr (Text.trim_append_append hbefore hafter text)

/-- A mark in front of a member adds `null` to its alternatives. -/
theorem expand_cons_mark (text : List Char) :
    expand ('?' :: text) = expand text ++ ["null".toList] := by
  have htrim := Text.trim_cons_of_not_blank (c := '?') (by decide) text
  rw [expand_of_mark htrim, expand_congr (Text.trim_trimEnd text)]

/-- Blanks in front of a union stand in front of its first member. -/
theorem alternatives_append_of_blank {before : List Char}
    (h : ∀ c ∈ before, Text.isBlank c = true) (text : List Char) :
    alternatives (before ++ text) = alternatives text := by
  rw [alternatives, PassedOver.of_blank h, alternatives]
  cases splitBars 0 text with
  | nil => rfl
  | cons part others =>
    have hpart := expand_append_append h (fun c hc => absurd hc List.not_mem_nil) part
    rw [List.append_nil] at hpart
    rw [List.modifyHead_cons, List.flatMap_cons, List.flatMap_cons, hpart]

/-- A text without bars behind a union belongs to the last member. -/
theorem exists_splitBars_append {d : Int} {after : List Char} (h : ∀ d, PassedOver d after)
    (text : List Char) : ∃ parts last, splitBars d text = parts ++ [last] ∧
      splitBars d (text ++ after) = parts ++ [last ++ after] := by
  induction text generalizing d with
  | nil => exact ⟨[], [], rfl, (h d).splitBars_eq⟩
  | cons c rest ih =>
    by_cases hbar : c = '|' ∧ d = 0
    · obtain ⟨rfl, rfl⟩ := hbar
      obtain ⟨parts, last, htext, hall⟩ := @ih 0
      rw [List.cons_append, splitBars_bar, splitBars_bar, htext, hall]
      exact ⟨[] :: parts, last, rfl, rfl⟩
    · have hc : c = '|' → d ≠ 0 := fun heq hd => hbar ⟨heq, hd⟩
      obtain ⟨parts, last, htext, hall⟩ := @ih (depthAfter d c)
      rw [List.cons_append, splitBars_cons hc, splitBars_cons hc, htext, hall]
      cases parts with
      | nil => exact ⟨[], c :: last, rfl, rfl⟩
      | cons part parts => exact ⟨(c :: part) :: parts, last, rfl, rfl⟩

/-- Blanks behind a union stand behind its last member. -/
theorem alternatives_append_blank {after : List Char} (h : ∀ c ∈ after, Text.isBlank c = true)
    (text : List Char) : alternatives (text ++ after) = alternatives text := by
  obtain ⟨parts, last, htext, hall⟩ :=
    exists_splitBars_append (d := 0) (fun d => PassedOver.of_blank h) text
  have hlast : expand (last ++ after) = expand last :=
    expand_append_append (fun c hc => absurd hc List.not_mem_nil) h last
  rw [alternatives, hall, alternatives, htext, List.flatMap_append, List.flatMap_append,
    List.flatMap_singleton, List.flatMap_singleton, hlast]

/-! ## Members -/

/-- Splitting finds no bar in the text of a member, and the text has the member's alternatives. -/
structure ReadAs (text : List Char) (flat : List (List Char)) : Prop where
  balanced : Balanced text
  passedOver : PassedOver 0 text
  expand_eq : expand text = flat

/-- An atom is read as itself. -/
theorem Atom.readAs (a : Atom) : ReadAs a.text [a.text] where
  balanced := a.balanced
  passedOver := .of_bars a.balanced.depth_eq fun before after h => by
    rw [Int.zero_add]
    exact a.bars before after h
  expand_eq := by
    have hgroup : group? a.text = none :=
      Option.not_isSome_iff_eq_none.mp fun h => a.noGroup (isSome_group?_iff.mp h)
    have hplain := @expand_of_plain a.text
    rw [a.trim_eq] at hplain
    exact hplain a.ne_nil a.noMark hgroup

/-- A question mark in front adds `null` behind. -/
theorem ReadAs.nullable {text : List Char} {flat : List (List Char)} (h : ReadAs text flat) :
    ReadAs ('?' :: text) (flat ++ ["null".toList]) where
  balanced := (Balanced.singleton (c := '?') (by decide) (by decide)).append h.balanced
  passedOver := (PassedOver.singleton (c := '?') rfl (by decide)).append h.passedOver
  expand_eq := by rw [expand_cons_mark, h.expand_eq]

/-- Parentheses around a union make it a member that has the alternatives of the union. -/
theorem ReadAs.group {text : List Char} {flat : List (List Char)} (hbalanced : Balanced text)
    (h : alternatives text = flat) : ReadAs ('(' :: text ++ [')']) flat where
  balanced := hbalanced.enclosed
  passedOver := .enclosed (by decide) (by decide) (hbalanced.passedOver (by decide))
  expand_eq := by
    have htrim : Text.trim ('(' :: text ++ [')']) = '(' :: text ++ [')'] := by
      refine Text.trim_of_ends (fun c hc => ?_) fun c hc => ?_
      · obtain rfl : '(' = c := Option.some.inj hc
        decide
      · rw [List.getLast?_concat] at hc
        obtain rfl := Option.some.inj hc
        decide
    have hgroup : group? (Text.trim ('(' :: text ++ [')'])) = some text := by
      rw [htrim, group?_eq_some_iff]
      exact ⟨rfl, hbalanced⟩
    rw [expand_of_group hgroup, ← alternatives, h]

/-- Blanks around a member do not count. -/
theorem ReadAs.padded {before text after : List Char} {flat : List (List Char)}
    (hbefore : ∀ c ∈ before, Text.isBlank c = true) (hafter : ∀ c ∈ after, Text.isBlank c = true)
    (h : ReadAs text flat) : ReadAs (before ++ text ++ after) flat where
  balanced := ((Balanced.of_blank hbefore).append h.balanced).append (.of_blank hafter)
  passedOver := ((PassedOver.of_blank hbefore).append h.passedOver).append (.of_blank hafter)
  expand_eq := (expand_append_append hbefore hafter text).trans h.expand_eq

/-! ## Unions -/

/-- A text without bars outside brackets is one part. -/
theorem alternatives_of_passedOver {text : List Char} (h : PassedOver 0 text) :
    alternatives text = expand text := by
  rw [alternatives, h.splitBars_eq, List.flatMap_singleton]

/-- At a bar outside brackets the alternatives of both sides come one after the other. -/
theorem alternatives_append_bar {text : List Char} (h : depth text = 0) (rest : List Char) :
    alternatives (text ++ '|' :: rest) = alternatives text ++ alternatives rest := by
  have hcut := splitBars_append_bar (d := 0) (by rw [Int.zero_add, h]) rest
  rw [alternatives, hcut, List.flatMap_append, alternatives, alternatives]

mutual

/-- Every text of a member is read as the member laid flat. -/
theorem UnionMember.Written.readAs : ∀ {member : UnionMember} {text : List Char},
    member.Written text → ReadAs text member.flatten
  | _, _, .atom a => a.readAs
  | _, _, .nullable hinner => hinner.readAs.nullable
  | _, _, .group hmembers => .group hmembers.balanced hmembers.alternatives_eq
  | _, _, .padded hbefore hafter hmember => hmember.readAs.padded hbefore hafter

/-- Every text of a union is balanced, so that it can stand in parentheses. -/
theorem UnionExpr.Written.balanced : ∀ {members : UnionExpr} {text : List Char},
    members.Written text → Balanced text
  | _, _, .single hmember => hmember.readAs.balanced
  | _, _, .cons hmember hothers =>
    hmember.readAs.balanced.append
      ((Balanced.singleton (c := '|') (by decide) (by decide)).append hothers.balanced)

/-- Every text of a union has the members laid flat as its alternatives. -/
theorem UnionExpr.Written.alternatives_eq : ∀ {members : UnionExpr} {text : List Char},
    members.Written text → alternatives text = members.flatten
  | _, _, .single hmember =>
    (alternatives_of_passedOver hmember.readAs.passedOver).trans hmember.readAs.expand_eq
  | _, _, .cons hmember hothers => by
    rw [alternatives_append_bar hmember.readAs.balanced.depth_eq,
      alternatives_of_passedOver hmember.readAs.passedOver, hmember.readAs.expand_eq,
      hothers.alternatives_eq, UnionExpr.flatten]

end

/-! ## Type texts of doc comments -/

/-- The punctuation that is dropped at the end is not blank. -/
theorem isBlank_of_isTrailing {c : Char} (h : isTrailing c = true) : Text.isBlank c = false := by
  simp only [isTrailing, Bool.or_eq_true, beq_iff_eq] at h
  rcases h with rfl | rfl <;> decide

/-- Blanks at the start of a union do not count. -/
theorem alternatives_trimStart (text : List Char) :
    alternatives (Text.trimStart text) = alternatives text := by
  obtain ⟨before, hbefore, htext⟩ := Text.exists_append_trimStart text
  have hall := alternatives_append_of_blank hbefore (Text.trimStart text)
  rw [← htext] at hall
  exact hall.symm

/-- Blanks around a union do not count. -/
theorem alternatives_trim (text : List Char) :
    alternatives (Text.trim text) = alternatives text := by
  obtain ⟨after, hafter, htext⟩ := Text.exists_trimEnd_append text
  have hall := alternatives_append_blank hafter (Text.trimEnd text)
  rw [← htext] at hall
  rw [Text.trim, alternatives_trimStart, hall]

/-- Punctuation behind a text does not reach into it if the text itself ends otherwise. -/
theorem alternatives_dropEndWhile {text tail : List Char}
    (hend : ∀ c ∈ (Text.trim text).getLast?, isTrailing c = false)
    (htail : ∀ c ∈ tail, isTrailing c = true) :
    alternatives (Text.dropEndWhile isTrailing (Text.trim (text ++ tail))) =
      alternatives text := by
  cases tail with
  | nil => rw [List.append_nil, Text.dropEndWhile_of_getLast? hend, alternatives_trim]
  | cons c rest =>
    have hblank (d : Char) (hd : d ∈ c :: rest) : Text.isBlank d = false :=
      isBlank_of_isTrailing (htail d hd)
    have htrim : Text.trim (text ++ c :: rest) = Text.trimStart text ++ c :: rest :=
      Text.trim_append_of_ends text (List.cons_ne_nil c rest)
        (Text.NoBlankFirst.of_forall hblank) (Text.NoBlankLast.of_forall hblank)
    have hlast : ∀ d, (Text.trimStart text).getLast? = some d → isTrailing d = false := by
      intro d hd
      cases hd' : isTrailing d with
      | false => rfl
      | true =>
        -- Such a character is no blank, so the trimmed text ends with it too.
        have htrimmed := Text.getLast?_trim_of_not_blank hd (isBlank_of_isTrailing hd')
        rw [Text.trim_trimStart] at htrimmed
        exact hd'.symm.trans (hend d htrimmed)
    rw [htrim, Text.dropEndWhile_append_of_pos htail, Text.dropEndWhile_of_getLast? hlast,
      alternatives_trimStart]

/-- **Splitting a text that writes a union gives the union laid flat**, also with full stops and
commas behind the text, unless the text itself ends with one. -/
theorem splitAlternatives_of_written {members : UnionExpr} {text tail : List Char}
    (h : members.Written text)
    (hend : ∀ c ∈ (Text.trim text).getLast?, isTrailing c = false)
    (htail : ∀ c ∈ tail, isTrailing c = true) :
    splitAlternatives (.ofList (text ++ tail)) = members.flatten.map String.ofList := by
  rw [splitAlternatives, String.toList_ofList, alternatives_dropEndWhile hend htail,
    h.alternatives_eq]

/-- In `( A |?array[int|string])|?(B)(C)` a bar is kept inside brackets, and `(B)(C)` is no group. -/
theorem splitAlternatives_of_written_nested :
    (∀ c ∈ (Text.trim "( A |?array[int|string])|?(B)(C)".toList).getLast?, isTrailing c = false) ∧
      (∀ c ∈ ['.', ','], isTrailing c = true) ∧
      splitAlternatives (.ofList ("( A |?array[int|string])|?(B)(C)".toList ++ ['.', ','])) =
        ["A", "array[int|string]", "null", "(B)(C)", "null"] := by
  have hplain : (UnionMember.atom { text := "A".toList }).Written ([' '] ++ "A".toList ++ [' ']) :=
    .padded (by decide) (by decide) (.atom _)
  have hgroup := UnionMember.Written.group
    (.cons hplain (.single (.nullable (.atom { text := "array[int|string]".toList }))))
  have hpair := UnionMember.Written.nullable (.atom { text := "(B)(C)".toList })
  have hlast : (Text.trim "( A |?array[int|string])|?(B)(C)".toList).getLast? = some ')' := by
    decide
  have hend : ∀ c ∈ (Text.trim "( A |?array[int|string])|?(B)(C)".toList).getLast?,
      isTrailing c = false := by
    intro c hc
    obtain rfl := Option.some.inj (hlast.symm.trans hc)
    decide
  exact ⟨hend, by decide,
    splitAlternatives_of_written (.cons hgroup (.single hpair)) hend (by decide)⟩

end PhpTypes.TypeExpr
