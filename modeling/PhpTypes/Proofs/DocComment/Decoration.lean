import Mathlib.Data.List.Forall2
import PhpTypes.Proofs.DocComment.Lines

/-!
# Decorated doc comments

Comments are decorated: every line starts with stars that blanks set off, and delimiters stand in
lines of their own. Decoration says nothing. Two texts of the same lines are read alike, whether
their lines are decorated, whether there are delimiters, and however lines end
(`parse_eq_of_isTextOf`), provided that the lines themselves neither start with stars nor show a
delimiter at one of the two ends.
-/

namespace PhpTypes.DocComment

open Text (isBlank trim)

variable {ls ls' : List (List Char)} {line decorated : List Char}

/-! ## Line ends -/

/-- How a line ends. -/
inductive LineEnd where
  | lf
  | crlf
  deriving DecidableEq, Repr

namespace LineEnd

/-- What stands in front of the line feed. -/
def lead : LineEnd → List Char
  | lf => []
  | crlf => ['\r']

/-- The characters of a line end. -/
def chars (e : LineEnd) : List Char :=
  e.lead ++ ['\n']

/-- The lines with line ends between them. -/
def join (e : LineEnd) (ls : List (List Char)) : List Char :=
  e.chars.intercalate ls

/-- What stands in front of a line feed is blank. -/
theorem isBlank_of_mem_lead {e : LineEnd} {c : Char} (h : c ∈ e.lead) : isBlank c = true := by
  cases e with
  | lf => cases h
  | crlf =>
    obtain rfl := List.mem_singleton.mp h
    decide

/-- What stands in front of a line feed is no line feed itself. -/
theorem newline_not_mem_lead (e : LineEnd) : '\n' ∉ e.lead := by
  cases e <;> decide

/-- A line end is blank. -/
theorem isBlank_of_mem_chars {e : LineEnd} {c : Char} (h : c ∈ e.chars) : isBlank c = true := by
  rcases List.mem_append.mp h with h | h
  · exact isBlank_of_mem_lead h
  · obtain rfl := List.mem_singleton.mp h
    decide

/-- Lines with any line ends are lines with line feeds between them, up to blanks. -/
theorem exists_join_eq (e : LineEnd) (h : ∀ line ∈ ls, '\n' ∉ line) :
    ∃ ls', e.join ls = Text.join '\n' ls' ∧ ls'.map trim = ls.map trim ∧
      ∀ line ∈ ls', '\n' ∉ line := by
  induction ls with
  | nil => exact ⟨[], rfl, rfl, h⟩
  | cons line rest ih =>
    cases rest with
    | nil => exact ⟨[line], by rw [join, List.intercalate_singleton, Text.join_singleton], rfl, h⟩
    | cons next rest =>
      obtain ⟨hline, hrest⟩ := List.forall_mem_cons.mp h
      obtain ⟨ls', hjoin, htrim, hls'⟩ := ih hrest
      obtain ⟨first, others, rfl⟩ : ∃ first others, ls' = first :: others := by
        cases ls' with
        | nil => cases htrim
        | cons first others => exact ⟨first, others, rfl⟩
      refine ⟨(line ++ e.lead) :: first :: others, ?_, ?_, ?_⟩
      · rw [Text.join_cons_cons, ← hjoin, join, List.intercalate_cons_cons, chars, join, chars]
        simp only [List.append_assoc, List.singleton_append]
      · rw [List.map_cons, htrim, Text.trim_append_blank (fun _ hc => isBlank_of_mem_lead hc)]
        rfl
      · refine List.forall_mem_cons.mpr ⟨?_, hls'⟩
        exact fun hmem => (List.mem_append.mp hmem).elim hline e.newline_not_mem_lead

end LineEnd

/-! ## Decoration -/

/-- No character is dropped from a text that starts with another one. -/
theorem dropWhile_of_head?_ne {c : Char} {text : List Char} (h : text.head? ≠ some c) :
    text.dropWhile (· == c) = text :=
  Text.dropWhile_eq_iff.mpr ⟨fun _ hd => beq_false_of_ne fun heq => h (heq ▸ hd), [], nofun, rfl⟩

/-- What a line is decorated with: stars, blanks in front of them, and blanks behind. -/
structure Decoration where
  indent : List Char
  stars : List Char
  gap : List Char
  isIndent : ∀ c ∈ indent, c = ' ' ∨ c = '\t'
  stars_ne_nil : stars ≠ []
  isStar : ∀ c ∈ stars, c = '*'
  gap_ne_nil : gap ≠ []
  isGap : ∀ c ∈ gap, c = ' ' ∨ c = '\t'

/-- A line with the decoration in front. -/
def Decoration.apply (d : Decoration) (line : List Char) : List Char :=
  d.indent ++ (d.stars ++ (d.gap ++ line))

namespace Decoration

variable (d : Decoration)

/-- Spaces and tabs are blank. -/
theorem isBlank_of_space {c : Char} (h : c = ' ' ∨ c = '\t') : isBlank c = true := by
  rcases h with rfl | rfl <;> decide

/-- Stars are not blank. -/
theorem noBlank_stars : ∀ c ∈ d.stars, isBlank c = false := by
  intro c hc
  rw [d.isStar c hc]
  decide

/-- Trimming a decorated line leaves the stars in front and trims the line behind them. -/
theorem trim_apply (line : List Char) :
    trim (d.apply line) = d.stars ++ Text.trimEnd (d.gap ++ line) := by
  rw [apply, Text.trim_append_of_blank fun c hc => isBlank_of_space (d.isIndent c hc),
    Text.trim_append d.stars_ne_nil (.of_forall d.noBlank_stars) (.of_forall d.noBlank_stars)]

/-- A decorated line starts with a star once it is trimmed. -/
theorem head?_trim_apply (line : List Char) : (trim (d.apply line)).head? = some '*' := by
  obtain ⟨c, rest, hstars⟩ := List.exists_cons_of_ne_nil d.stars_ne_nil
  have hc : c = '*' := d.isStar c (hstars ▸ List.mem_cons_self)
  rw [trim_apply, hstars, hc]
  rfl

/-- Decoration adds no line feed. -/
theorem newline_not_mem_apply (h : '\n' ∉ line) : '\n' ∉ d.apply line := by
  intro hmem
  simp only [apply, List.mem_append] at hmem
  rcases hmem with hc | hc | hc | hc
  · exact absurd (d.isIndent _ hc) (by decide)
  · exact absurd (d.isStar _ hc) (by decide)
  · exact absurd (d.isGap _ hc) (by decide)
  · exact h hc

/-- Decoration is taken off, unless the line starts with stars of its own. -/
theorem undecorate_apply (h : (trim line).head? ≠ some '*') :
    undecorate (d.apply line) = undecorate line := by
  have hgap : (Text.trimEnd (d.gap ++ line)).head? ≠ some '*' := by
    intro hhead
    obtain ⟨c, rest, hgap⟩ := List.exists_cons_of_ne_nil d.gap_ne_nil
    have hfirst := Text.head?_trimEnd hhead
    rw [hgap] at hfirst
    obtain rfl := Option.some.inj hfirst
    exact absurd (d.isGap _ (hgap ▸ List.mem_cons_self)) (by decide)
  rw [undecorate, trim_apply, List.dropWhile_append_of_pos (by simpa using d.isStar),
    dropWhile_of_head?_ne hgap, Text.trim_trimEnd,
    Text.trim_append_of_blank fun c hc => isBlank_of_space (d.isGap c hc), undecorate,
    dropWhile_of_head?_ne h, Text.trim_trim]

/-- A decorated line ends with a delimiter only if the line itself does. -/
theorem suffix_of_suffix_trim_apply (h : "*/".toList <:+ trim (d.apply line)) :
    "*/".toList <:+ trim line := by
  obtain ⟨before, c, hgap⟩ : ∃ before c, d.gap = before ++ [c] :=
    ⟨_, _, (List.dropLast_concat_getLast d.gap_ne_nil).symm⟩
  have hblank : ∀ e ∈ before ++ [c], isBlank e = true :=
    fun e he => isBlank_of_space (d.isGap e (hgap ▸ he))
  have hc : isBlank c = true := hblank c (List.mem_append_right before List.mem_cons_self)
  have hshape : d.apply line = (d.indent ++ (d.stars ++ before)) ++ c :: line := by
    rw [apply, hgap]
    simp only [List.append_assoc, List.singleton_append]
  rw [hshape, Text.suffix_trim_append_cons (by decide) hc] at h
  split at h
  · -- Nothing but stars would be left of the line, and they hold no slash.
    rw [Text.trim_append_of_blank fun e he => isBlank_of_space (d.isIndent e he),
      Text.trim_append_blank fun e he => hblank e (List.mem_append_left [c] he),
      Text.trim_of_ends (Text.NoBlankFirst.of_forall d.noBlank_stars)
        (Text.NoBlankLast.of_forall d.noBlank_stars)] at h
    have hslash : '/' ∈ d.stars := h.mem (by decide)
    exact absurd (d.isStar '/' hslash) (by decide)
  · exact h

end Decoration

/-- The lines are the given ones, each with a decoration of its own. -/
def Decorated (ls ls' : List (List Char)) : Prop :=
  List.Forall₂ (fun line decorated => ∃ d : Decoration, decorated = d.apply line) ls ls'

/-- Every decorated line is one of the lines with a decoration. -/
theorem Decorated.exists_of_mem (h : Decorated ls ls') (hmem : decorated ∈ ls') :
    ∃ line ∈ ls, ∃ d : Decoration, decorated = d.apply line := by
  induction h with
  | nil => cases hmem
  | @cons line first rest rest' hfirst _ ih =>
    rcases List.mem_cons.mp hmem with rfl | hmem
    · exact ⟨line, List.mem_cons_self, hfirst⟩
    · obtain ⟨other, hother, hd⟩ := ih hmem
      exact ⟨other, List.mem_cons_of_mem line hother, hd⟩

/-- Decorated lines carry what the lines carry, if these do not start with stars of their own. -/
theorem Decorated.filterMap_eq (h : Decorated ls ls')
    (hstar : ∀ line ∈ ls, (trim line).head? ≠ some '*') :
    ls'.filterMap readLine? = ls.filterMap readLine? := by
  induction h with
  | nil => rfl
  | @cons line first rest rest' hfirst _ ih =>
    obtain ⟨hline, hrest⟩ := List.forall_mem_cons.mp hstar
    obtain ⟨d, rfl⟩ := hfirst
    have hsame : readLine? (d.apply line) = readLine? line := by
      rw [readLine?, d.undecorate_apply hline, readLine?]
    rw [List.filterMap_cons, List.filterMap_cons, hsame, ih hrest]

/-- If the first decorated line ends with a delimiter, so does the first line that is not blank. -/
theorem Decorated.exists_suffix (h : Decorated ls ls') (hmem : decorated ∈ firstWritten ls')
    (hsuffix : "*/".toList <:+ decorated) :
    ∃ line ∈ firstWritten ls, "*/".toList <:+ line := by
  cases h with
  | nil => cases hmem
  | @cons line first rest rest' hfirst _ =>
    obtain ⟨d, rfl⟩ := hfirst
    have hne : trim (d.apply line) ≠ [] := by
      intro hnil
      have hhead := d.head?_trim_apply line
      rw [hnil] at hhead
      cases hhead
    rw [firstWritten_cons, if_neg hne] at hmem
    obtain rfl := Option.some.inj hmem
    have hline := d.suffix_of_suffix_trim_apply hsuffix
    have hline' : trim line ≠ [] := by
      intro hnil
      rw [hnil, List.suffix_nil] at hline
      exact absurd hline (by decide)
    rw [firstWritten_cons, if_neg hline']
    exact ⟨trim line, rfl, hline⟩

/-- Decorated lines show no delimiters if the lines show none. -/
theorem Decorated.bare (h : Decorated ls ls') (hbare : Bare (Text.join '\n' ls)) :
    Bare (Text.join '\n' ls') := by
  rw [bare_join_iff] at hbare ⊢
  constructor
  · rintro line hline ⟨rest, rfl⟩
    obtain ⟨decorated, hmem, htrim⟩ := List.mem_map.mp (List.mem_of_find?_eq_some hline)
    obtain ⟨written, -, d, rfl⟩ := h.exists_of_mem hmem
    have hhead := d.head?_trim_apply written
    rw [htrim] at hhead
    cases hhead
  · intro line hline hsuffix
    have hreverse : Decorated ls.reverse ls'.reverse := List.forall₂_reverse_iff.mpr h
    obtain ⟨written, hwritten, hend⟩ := hreverse.exists_suffix hline hsuffix
    exact hbare.2 written hwritten hend

/-! ## Written comments -/

/-- A text of the lines between delimiters, or without them. -/
inductive Written (e : LineEnd) (ls : List (List Char)) : List Char → Prop
  | plain : Written e ls (e.join ls)
  | delimited : Written e ls ("/**".toList ++ (e.chars ++ e.join ls ++ e.chars) ++ "*/".toList)

/-- The text has the given lines, with decoration or without, with delimiters or without, and with
any line ends. -/
def IsTextOf (ls : List (List Char)) (text : List Char) : Prop :=
  ∃ e ls', (ls' = ls ∨ Decorated ls ls') ∧ Written e ls' text

/-- Lines are read without regard to line ends and delimiters. -/
theorem Written.lines_eq {e : LineEnd} {text : List Char} (h : Written e ls text)
    (hls : ∀ line ∈ ls, '\n' ∉ line) (hbare : Bare (Text.join '\n' ls)) :
    lines text = ls.filterMap readLine? := by
  obtain ⟨ls', hjoin, htrim, hls'⟩ := e.exists_join_eq hls
  have hcarried : carried (e.join ls) = ls.filterMap readLine? := by
    rw [hjoin, carried_join hls', filterMap_readLine?_congr htrim]
  cases h with
  | plain =>
    have hbare' : Bare (e.join ls) := hjoin ▸ bare_join_congr htrim hbare
    rw [hbare'.lines_eq, hcarried]
  | delimited =>
    rw [lines_delimited, carried_append_of_blank fun _ hc => LineEnd.isBlank_of_mem_chars hc,
      carried_of_blank_append fun _ hc => LineEnd.isBlank_of_mem_chars hc, hcarried]

/-- Whatever is written around the lines, they carry the same. -/
theorem IsTextOf.lines_eq {text : List Char} (h : IsTextOf ls text)
    (hls : ∀ line ∈ ls, '\n' ∉ line ∧ (trim line).head? ≠ some '*')
    (hbare : Bare (Text.join '\n' ls)) : lines text = ls.filterMap readLine? := by
  obtain ⟨e, ls', rfl | hdecorated, hwritten⟩ := h
  · exact hwritten.lines_eq (fun line hline => (hls line hline).1) hbare
  · have hls' : ∀ decorated ∈ ls', '\n' ∉ decorated := by
      intro decorated hmem
      obtain ⟨line, hline, d, rfl⟩ := hdecorated.exists_of_mem hmem
      exact d.newline_not_mem_apply (hls line hline).1
    rw [hwritten.lines_eq hls' (hdecorated.bare hbare),
      hdecorated.filterMap_eq fun line hline => (hls line hline).2]

/-- **Decoration does not change what a comment says.** Texts of the same lines are read alike. -/
theorem parse_eq_of_isTextOf
    (hls : ∀ line ∈ ls, '\n' ∉ line ∧ (trim line).head? ≠ some '*')
    (hbare : Bare (Text.join '\n' ls)) {text text' : String} (h : IsTextOf ls text.toList)
    (h' : IsTextOf ls text'.toList) : parse text = parse text' := by
  unfold parse
  rw [h.lines_eq hls hbare, h'.lines_eq hls hbare]

/-- A comment with an empty line, plain, and with stars, delimiters and other line ends. -/
theorem parse_eq_of_isTextOf_of_stars :
    let ls := ["Sums up.".toList, [], "@param int $a the first".toList, "of all".toList]
    let plain := "Sums up.\n\n@param int $a the first\nof all"
    let starred := "/**\r\n * Sums up.\r\n * \r\n ** @param int $a the first\r\n\t*\tof all\r\n*/"
    ((∀ line ∈ ls, '\n' ∉ line ∧ (trim line).head? ≠ some '*') ∧ Bare (Text.join '\n' ls) ∧
      IsTextOf ls plain.toList ∧ IsTextOf ls starred.toList) ∧
    parse plain = parse starred ∧
    parse starred = ⟨"Sums up.", [.param ⟨some "a", some "int", "the first of all", false⟩]⟩ := by
  intro ls plain starred
  let star : Decoration :=
    ⟨[' '], ['*'], [' '], by decide, by decide, by decide, by decide, by decide⟩
  let stars : Decoration :=
    ⟨[' '], ['*', '*'], [' '], by decide, by decide, by decide, by decide, by decide⟩
  let tabs : Decoration :=
    ⟨['\t'], ['*'], ['\t'], by decide, by decide, by decide, by decide, by decide⟩
  have hls : ∀ line ∈ ls, '\n' ∉ line ∧ (trim line).head? ≠ some '*' := by decide
  have hbare : Bare (Text.join '\n' ls) := ⟨by decide, by decide⟩
  have hplain : IsTextOf ls plain.toList := by
    have hjoin : LineEnd.lf.join ls = plain.toList := by decide
    exact ⟨.lf, ls, .inl rfl, hjoin ▸ .plain⟩
  have hstarred : IsTextOf ls starred.toList := by
    let ls' := [star.apply ls[0], star.apply ls[1], stars.apply ls[2], tabs.apply ls[3]]
    have hls' : Decorated ls ls' :=
      .cons ⟨star, rfl⟩ (.cons ⟨star, rfl⟩ (.cons ⟨stars, rfl⟩ (.cons ⟨tabs, rfl⟩ .nil)))
    have hjoin : "/**".toList ++ (LineEnd.crlf.chars ++ LineEnd.crlf.join ls' ++
        LineEnd.crlf.chars) ++ "*/".toList = starred.toList := by decide
    exact ⟨.crlf, ls', .inr hls', hjoin ▸ .delimited⟩
  have hparse := parse_eq_of_isTextOf hls hbare hplain hstarred
  refine ⟨⟨hls, hbare, hplain, hstarred⟩, hparse, ?_⟩
  rw [← hparse]
  decide

end PhpTypes.DocComment
