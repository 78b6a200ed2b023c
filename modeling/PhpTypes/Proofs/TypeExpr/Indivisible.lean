import PhpTypes.Proofs.TypeExpr.Union

/-!
# Alternatives are fully split

Nothing is asked of the text here: its brackets may close before they open or never close at all.
What splitting keeps in hand is the depth counted from the start of each part. A cut is only made
at depth zero, so the count starts anew in every part, and neither blanks nor a mark at the start
of a part change it. Hence no part has a bar outside its own brackets (`BarsEnclosed`), and what
`expand` leaves standing is `Indivisible`: splitting it again finds nothing to do.
-/

namespace PhpTypes.TypeExpr

/-- A text that can be taken apart no further: there are no blanks around it, it is neither
nullable nor a group, and all of its bars stand inside brackets. -/
structure Indivisible (text : List Char) : Prop where
  ne_nil : text ≠ []
  noBlankFirst : Text.NoBlankFirst text
  noBlankLast : Text.NoBlankLast text
  noMark : text.head? ≠ some '?'
  bars : BarsEnclosed text
  noGroup : ¬ IsGroup text

/-! ## Bars at a depth -/

/-- Every bar of the text stands at a depth other than zero, if the depth in front of the text is
the given one. -/
def BarsEnclosedFrom (d : Int) (text : List Char) : Prop :=
  ∀ before after, text = before ++ '|' :: after → d + depth before ≠ 0

/-- At the start of a text the depth is zero. -/
theorem barsEnclosedFrom_zero {text : List Char} :
    BarsEnclosedFrom 0 text ↔ BarsEnclosed text := by
  simp only [BarsEnclosedFrom, BarsEnclosed, Int.zero_add]

/-- The empty text has no bars. -/
theorem BarsEnclosedFrom.nil (d : Int) : BarsEnclosedFrom d [] := by
  intro before after h
  simp at h

/-- Bars are enclosed if the first character is none outside brackets and those of the rest are, at
the depth behind that character. -/
theorem BarsEnclosedFrom.cons {d : Int} {c : Char} {rest : List Char} (hc : c = '|' → d ≠ 0)
    (hrest : BarsEnclosedFrom (depthAfter d c) rest) : BarsEnclosedFrom d (c :: rest) := by
  intro before after h
  rcases List.cons_eq_append_iff.mp h with ⟨rfl, hbar⟩ | ⟨before, rfl, hrest'⟩
  · rw [depth_nil, Int.add_zero]
    exact hc (List.cons.inj hbar).1.symm
  · rw [← depthAfter_add_depth]
    exact hrest before after hrest'

/-- What follows a text of depth zero is counted from zero again. -/
theorem BarsEnclosed.of_append {before text after : List Char} (hbefore : depth before = 0)
    (h : BarsEnclosed (before ++ text ++ after)) : BarsEnclosed text := by
  rintro s t rfl
  have hbar := h (before ++ s) (t ++ after) (by simp)
  rwa [depth_append, hbefore, Int.zero_add] at hbar

/-- Blanks at the ends do not change the depth of what is between them. -/
theorem BarsEnclosed.trim {text : List Char} (h : BarsEnclosed text) :
    BarsEnclosed (Text.trim text) := by
  obtain ⟨before, after, hbefore, -, htext⟩ := Text.exists_append_trim_append text
  rw [htext] at h
  exact h.of_append (Balanced.of_blank hbefore).depth_eq

/-- A question mark in front does not change the depth of what follows it. -/
theorem BarsEnclosed.of_mark {text : List Char} (h : BarsEnclosed ('?' :: text)) :
    BarsEnclosed text := by
  have happend : '?' :: text = ['?'] ++ text ++ [] := by simp
  rw [happend] at h
  exact h.of_append (by decide)

/-- A text whose bars are all enclosed is one part, even if it leaves brackets open. -/
theorem BarsEnclosed.splitBars_eq {text : List Char} (h : BarsEnclosed text) :
    splitBars 0 text = [text] := by
  have hall := splitBars_append_of_bars (barsEnclosedFrom_zero.mpr h) []
  simpa [splitBars] using hall

/-! ## The parts of a text -/

/-- The count goes on in the first part and starts anew in each of the others. -/
theorem barsEnclosed_of_splitBars {d : Int} {text first : List Char} {others : List (List Char)}
    (h : splitBars d text = first :: others) :
    BarsEnclosedFrom d first ∧ ∀ part ∈ others, BarsEnclosed part := by
  induction text generalizing d first others with
  | nil =>
    obtain ⟨rfl, rfl⟩ := List.cons.inj h
    exact ⟨.nil d, fun part hpart => absurd hpart List.not_mem_nil⟩
  | cons c rest ih =>
    obtain ⟨part, parts, hparts⟩ :=
      List.exists_cons_of_ne_nil (splitBars_ne_nil (depthAfter d c) rest)
    obtain ⟨hpart, hothers⟩ := ih hparts
    by_cases hcut : c = '|' ∧ d = 0
    · obtain ⟨rfl, rfl⟩ := hcut
      have hdepth : depthAfter 0 '|' = 0 := by decide
      rw [hdepth] at hpart hparts
      rw [splitBars_bar, hparts] at h
      obtain ⟨rfl, rfl⟩ := List.cons.inj h
      exact ⟨.nil 0, List.forall_mem_cons.mpr ⟨barsEnclosedFrom_zero.mp hpart, hothers⟩⟩
    · have hc : c = '|' → d ≠ 0 := fun hbar hd => hcut ⟨hbar, hd⟩
      rw [splitBars_cons hc, hparts, List.modifyHead_cons] at h
      obtain ⟨rfl, rfl⟩ := List.cons.inj h
      exact ⟨.cons hc hpart, hothers⟩

/-- **No part has a bar outside its own brackets.** -/
theorem barsEnclosed_of_mem_splitBars {text part : List Char} (h : part ∈ splitBars 0 text) :
    BarsEnclosed part := by
  obtain ⟨first, others, hparts⟩ := List.exists_cons_of_ne_nil (splitBars_ne_nil 0 text)
  obtain ⟨hfirst, hothers⟩ := barsEnclosed_of_splitBars hparts
  rw [hparts] at h
  rcases List.mem_cons.mp h with rfl | h
  · exact barsEnclosedFrom_zero.mp hfirst
  · exact hothers part h

/-! ## What is left standing -/

/-- The word `null` is indivisible. -/
theorem indivisible_null : Indivisible "null".toList where
  ne_nil := by decide
  noBlankFirst := .of_forall (by decide)
  noBlankLast := .of_forall (by decide)
  noMark := by decide
  bars := by decide
  noGroup := by decide

/-- Whatever way an alternative takes out of a part, it is indivisible in the end. -/
theorem indivisible_of_mem_expand {part : List Char} (h : BarsEnclosed part) :
    ∀ a ∈ expand part, Indivisible a := by
  fun_induction expand part with
  | case1 => exact fun a ha => absurd ha List.not_mem_nil
  | case2 part inner htrim ih =>
    have hinner : BarsEnclosed inner := BarsEnclosed.of_mark (htrim ▸ h.trim)
    intro a ha
    rcases List.mem_append.mp ha with ha | ha
    · exact ih hinner a ha
    · rw [List.mem_singleton.mp ha]
      exact indivisible_null
  | case3 part inner _ _ hgroup ih =>
    -- The members of a group are parts of a text of their own.
    intro a ha
    obtain ⟨⟨member, hmember⟩, -, ha⟩ := List.mem_flatMap.mp ha
    exact ih member hmember (barsEnclosed_of_mem_splitBars hmember) a ha
  | case4 part hne hmark hgroup =>
    intro a ha
    rw [List.mem_singleton.mp ha]
    refine ⟨hne, Text.noBlankFirst_trim part, Text.noBlankLast_trim part, fun hhead => ?_, h.trim,
      fun hIs => ?_⟩
    · obtain ⟨inner, hinner⟩ := List.head?_eq_some_iff.mp hhead
      exact hmark inner hinner
    · rw [← isSome_group?_iff, hgroup] at hIs
      cases hIs

/-- Trimming leaves an indivisible text alone. -/
theorem Indivisible.trim_eq {text : List Char} (h : Indivisible text) : Text.trim text = text :=
  Text.trim_of_ends h.noBlankFirst h.noBlankLast

/-- An indivisible text is its own only alternative. -/
theorem Indivisible.alternatives_eq {text : List Char} (h : Indivisible text) :
    alternatives text = [text] := by
  have hgroup : group? text = none :=
    Option.not_isSome_iff_eq_none.mp fun hsome => h.noGroup (isSome_group?_iff.mp hsome)
  have hplain := @expand_of_plain text
  rw [h.trim_eq] at hplain
  rw [alternatives, h.bars.splitBars_eq, List.flatMap_singleton, hplain h.ne_nil h.noMark hgroup]

/-- An indivisible text is the only alternative of its type text, unless there is punctuation at its
end, which would be dropped. -/
theorem Indivisible.splitAlternatives_eq {text : String} (h : Indivisible text.toList)
    (hstop : text.toList.getLast? ≠ some '.') (hcomma : text.toList.getLast? ≠ some ',') :
    splitAlternatives text = [text] := by
  have hend : ∀ c, text.toList.getLast? = some c → isTrailing c = false := by
    intro c hc
    simp only [isTrailing, Bool.or_eq_false_iff, beq_eq_false_iff_ne]
    constructor
    · rintro rfl
      exact hstop hc
    · rintro rfl
      exact hcomma hc
  rw [splitAlternatives, h.trim_eq, Text.dropEndWhile_of_getLast? hend, h.alternatives_eq,
    List.map_singleton, String.ofList_toList]

/-- **The alternatives of any text are indivisible**, and splitting one of them gives it back.
Punctuation is dropped from the end of the whole text only, so an alternative may end in some, and
splitting it would drop that. -/
theorem splitAlternatives_indivisible {text a : String} (h : a ∈ splitAlternatives text) :
    Indivisible a.toList ∧
      (a.toList.getLast? ≠ some '.' → a.toList.getLast? ≠ some ',' →
        splitAlternatives a = [a]) := by
  obtain ⟨chars, hchars, rfl⟩ := List.mem_map.mp h
  obtain ⟨part, hpart, hexpand⟩ := List.mem_flatMap.mp hchars
  have hbars : BarsEnclosed part := barsEnclosed_of_mem_splitBars hpart
  have hindivisible : Indivisible (String.ofList chars).toList := by
    rw [String.toList_ofList]
    exact indivisible_of_mem_expand hbars chars hexpand
  exact ⟨hindivisible, hindivisible.splitAlternatives_eq⟩

/-- In `?(A|B)|C)|D` the last bar stands behind a bracket that was never opened, and `C)|D` stays
together. -/
theorem splitAlternatives_indivisible_of_unbalanced :
    "C)|D" ∈ splitAlternatives "?(A|B)|C)|D" ∧ Indivisible "C)|D".toList ∧
      splitAlternatives "C)|D" = ["C)|D"] := by
  have hmem : "C)|D" ∈ splitAlternatives "?(A|B)|C)|D" := by
    decide +kernel
  obtain ⟨hindivisible, hsplit⟩ := splitAlternatives_indivisible hmem
  exact ⟨hmem, hindivisible, hsplit (by decide) (by decide)⟩

end PhpTypes.TypeExpr
