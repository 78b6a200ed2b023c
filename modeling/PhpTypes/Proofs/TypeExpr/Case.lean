import PhpTypes.Proofs.Text.Case
import PhpTypes.Proofs.TypeExpr.Alternatives
import PhpTypes.TypeExpr.Meaning

/-!
# Annotations and letter case

The layers and the alternatives of an annotation are found whatever the case of its letters: peeling
and splitting a text in lower case gives the lower case of what the text gives
(`peelTrimmed_foldCase`, `splitAlternatives_foldCase`).
-/

namespace PhpTypes.TypeExpr

open Text (foldCase)

/-! ## Class names -/

/-- A name may start with a character exactly if it may start with its lower case. -/
theorem isNameStart_toLower (c : Char) : isNameStart c.toLower = isNameStart c :=
  Text.apply_toLower (by decide) c

/-- A name may contain a character exactly if it may contain its lower case. -/
theorem isNameChar_toLower (c : Char) : isNameChar c.toLower = isNameChar c :=
  Text.apply_toLower (by decide) c

/-- Whether a text is a segment of a class name does not depend on its letter case. -/
theorem isSegment_foldCase (segment : List Char) :
    isSegment (foldCase segment) = isSegment segment := by
  cases segment with
  | nil => rfl
  | cons c rest =>
    have hcomp : isNameChar ∘ Char.toLower = isNameChar := funext isNameChar_toLower
    rw [Text.foldCase_cons, isSegment, isSegment, isNameStart_toLower, foldCase, List.all_map,
      hcomp]

/-- Whether a text is a class name does not depend on its letter case. -/
theorem isClassName_foldCase (text : List Char) :
    isClassName (foldCase text) = isClassName text := by
  have hcomp : isSegment ∘ foldCase = isSegment := funext isSegment_foldCase
  rw [isClassName, isClassName, Text.dropLead_foldCase (by decide),
    Text.splitOn_foldCase (by decide), List.all_map, hcomp]

/-! ## Array layers -/

/-- The word in `array[` is found in every letter case, and the element in the brackets is the same
up to case. -/
theorem bracketed?_foldCase (text : List Char) :
    bracketed? (foldCase text) = (bracketed? text).map foldCase := by
  have htake : (foldCase text).take arrayOpening.length =
      foldCase (text.take arrayOpening.length) := List.map_take.symm
  have hopening : Text.sameFolded ((foldCase text).take arrayOpening.length) arrayOpening =
      Text.sameFolded (text.take arrayOpening.length) arrayOpening := by
    rw [htake, Text.sameFolded, Text.sameFolded, Text.foldCase_foldCase]
  have helement : ((foldCase text).drop arrayOpening.length).dropLast =
      foldCase (text.drop arrayOpening.length).dropLast := by
    rw [foldCase, foldCase, List.map_dropLast, List.map_drop]
  rw [bracketed?, bracketed?, hopening, helement]
  split <;> rfl

/-- An outermost array layer, of either form, is taken off in lower case too. -/
theorem unwrap?_foldCase (text : List Char) :
    unwrap? (foldCase text) = (unwrap? text).map foldCase := by
  rw [unwrap?, unwrap?, Text.isSuffixOf?_foldCase (by decide)]
  cases ['[', ']'].isSuffixOf? text with
  | none => exact bracketed?_foldCase text
  | some element => rfl

/-- A text is peeled in the same way in lower case. -/
theorem peelTrimmed_foldCase (text : List Char) :
    peelTrimmed (foldCase text) = ((peelTrimmed text).1.map foldCase, (peelTrimmed text).2) := by
  fun_induction peelTrimmed text with
  | case1 text hend element h core layers hpeel ih =>
    have hend' := (Text.getLast?_foldCase_eq_iff (by decide)).mpr hend
    have hunwrap : unwrap? (foldCase text) = some (foldCase element) := by
      rw [unwrap?_foldCase, h, Option.map_some]
    rw [peelTrimmed_of_unwrap? hend' hunwrap, Text.trim_foldCase, ih, hpeel]
  | case2 text hend h =>
    have hend' := (Text.getLast?_foldCase_eq_iff (by decide)).mpr hend
    have hunwrap : unwrap? (foldCase text) = none := by
      rw [unwrap?_foldCase, h, Option.map_none]
    rw [peelTrimmed_of_unwrap?_eq_none hend' hunwrap, Option.map_none]
  | case3 text hend =>
    have hend' : (foldCase text).getLast? ≠ some ']' :=
      fun hlast => hend ((Text.getLast?_foldCase_eq_iff (by decide)).mp hlast)
    rw [peelTrimmed_of_getLast?_ne hend', Option.map_some]

/-! ## Alternatives -/

/-- Brackets are no letters, so a character changes the depth alike in both cases. -/
theorem depthAfter_toLower (depth : Int) (c : Char) :
    depthAfter depth c.toLower = depthAfter depth c := by
  have hopening : isOpening c.toLower = isOpening c := Text.apply_toLower (by decide) c
  have hclosing : isClosing c.toLower = isClosing c := Text.apply_toLower (by decide) c
  rw [depthAfter, depthAfter, hopening, hclosing]

/-- The bars outside of brackets are found in lower case too. -/
theorem splitBars_foldCase (depth : Int) (text : List Char) :
    splitBars depth (foldCase text) = (splitBars depth text).map foldCase := by
  induction text generalizing depth with
  | nil => rfl
  | cons c rest ih =>
    have hbar : (c.toLower == '|') = (c == '|') :=
      Text.apply_toLower (p := (· == '|')) (by decide) c
    rw [Text.foldCase_cons, splitBars, splitBars, hbar, depthAfter_toLower, ih, ih]
    split
    · rfl
    · cases splitBars (depthAfter depth c) rest <;> rfl

/-- Whether brackets close in order does not depend on letter case. -/
theorem closesFrom_foldCase (depth : Int) (text : List Char) :
    closesFrom depth (foldCase text) = closesFrom depth text := by
  induction text generalizing depth with
  | nil => rfl
  | cons c rest ih =>
    rw [Text.foldCase_cons, closesFrom, closesFrom, depthAfter_toLower, ih]

/-- A text in one pair of parentheses is recognized in lower case, with the same inside up to case.
-/
theorem group?_foldCase (text : List Char) :
    group? (foldCase text) = (group? text).map foldCase := by
  by_cases hhead : text.head? = some '('
  · cases text with
    | nil => cases hhead
    | cons c rest =>
      obtain rfl : c = '(' := by simpa using hhead
      have hlast : ((foldCase rest).getLast? == some ')') = (rest.getLast? == some ')') := by
        rw [Bool.eq_iff_iff, beq_iff_eq, beq_iff_eq, Text.getLast?_foldCase_eq_iff (by decide)]
      have hinner : (foldCase rest).dropLast = foldCase rest.dropLast := List.map_dropLast.symm
      have hfold : foldCase ('(' :: rest) = '(' :: foldCase rest := rfl
      rw [hfold, group?_cons, group?_cons, hlast, hinner, isBalanced, isBalanced,
        closesFrom_foldCase]
      split <;> rfl
  · have hhead' : (foldCase text).head? ≠ some '(' :=
      fun heq => hhead ((Text.head?_foldCase_eq_iff (by decide)).mp heq)
    rw [group?_of_head?_ne hhead, group?_of_head?_ne hhead', Option.map_none]

/-- The alternatives that one part stands for are the same up to letter case. -/
theorem expand_foldCase (part : List Char) :
    expand (foldCase part) = (expand part).map foldCase := by
  fun_induction expand part with
  | case1 part htrim =>
    refine expand_of_blank ?_
    rw [Text.trim_foldCase, htrim]
    rfl
  | case2 part inner htrim ih =>
    have hmark : Text.trim (foldCase part) = '?' :: foldCase inner := by
      rw [Text.trim_foldCase, htrim]
      rfl
    rw [expand_of_mark hmark, ih, List.map_append]
    rfl
  | case3 part inner _ _ hgroup ih =>
    have hgroup' : group? (Text.trim (foldCase part)) = some (foldCase inner) := by
      rw [Text.trim_foldCase, group?_foldCase, hgroup, Option.map_some]
    -- The parts of a group are shorter, so the induction covers them one by one.
    have hparts : (splitBars 0 inner).map (fun member => expand (foldCase member)) =
        (splitBars 0 inner).map fun member => (expand member).map foldCase :=
      List.map_congr_left ih
    rw [expand_of_group hgroup', splitBars_foldCase,
      List.flatMap_subtype (g := expand) (fun _ _ => rfl), List.unattach_attach, List.map_flatMap,
      List.flatMap_map, List.flatMap_def, hparts, ← List.flatMap_def]
  | case4 part hne hmark hgroup =>
    have htrim : Text.trim (foldCase part) = foldCase (Text.trim part) := Text.trim_foldCase part
    have hne' : Text.trim (foldCase part) ≠ [] := by
      rw [htrim]
      exact fun heq => hne (List.map_eq_nil_iff.mp heq)
    have hmark' : (Text.trim (foldCase part)).head? ≠ some '?' := by
      rw [htrim]
      intro heq
      obtain ⟨inner, hinner⟩ :=
        List.head?_eq_some_iff.mp ((Text.head?_foldCase_eq_iff (by decide)).mp heq)
      exact hmark inner hinner
    have hgroup' : group? (Text.trim (foldCase part)) = none := by
      rw [htrim, group?_foldCase, hgroup, Option.map_none]
    rw [expand_of_plain hne' hmark' hgroup', htrim]
    rfl

/-- A text has the same alternatives in lower case. -/
theorem splitAlternatives_foldCase (text : String) :
    splitAlternatives text.foldCase = (splitAlternatives text).map String.foldCase := by
  have htrailing (c : Char) : isTrailing c.toLower = isTrailing c :=
    Text.apply_toLower (by decide) c
  have hexpand : (fun part => expand (foldCase part)) = fun part => (expand part).map foldCase :=
    funext expand_foldCase
  rw [splitAlternatives, splitAlternatives, String.toList_foldCase, Text.trim_foldCase,
    Text.dropEndWhile_foldCase htrailing, alternatives, alternatives, splitBars_foldCase,
    List.flatMap_map, hexpand, ← List.map_flatMap, List.map_map, List.map_map]
  exact List.map_congr_left fun alternative _ => (String.foldCase_ofList alternative).symm

end PhpTypes.TypeExpr
