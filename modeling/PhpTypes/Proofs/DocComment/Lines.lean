import PhpTypes.DocComment.Parse
import PhpTypes.Proofs.Text.Ends

/-!
# The lines of a doc comment

What a doc comment says depends only on the lines that carry something, and a line is read without
regard to the blanks around it. So a text can be cut at any line end (`carried_append_newline`) and
blanks around it, line ends among them, do not count (`carried_trim`).

The delimiters of a comment are looked for once, at the two ends of the whole text. A text that is
`Bare` shows none there, and neither does a text that is put together from such texts
(`Bare.append_cons`). They could only stand in the first and in the last line that is not blank
(`bare_join_iff`).
-/

namespace PhpTypes.DocComment

open Text (isBlank trim)

variable {s t line opening closing : List Char} {b : Char} {ls ls' : List (List Char)}

/-! ## Lines without delimiters -/

/-- What a line carries. -/
def readLine? (line : List Char) : Option Line :=
  Line.ofText? (undecorate line)

/-- What the lines of a text carry, if the text has no delimiters. -/
def carried (text : List Char) : List Line :=
  (text.splitOn '\n').filterMap readLine?

/-- A comment carries what is carried between its delimiters. -/
theorem lines_eq (comment : List Char) : lines comment = carried (interior comment) :=
  rfl

/-- Lines that agree up to the blanks around them carry the same. -/
theorem readLine?_congr (h : trim s = trim t) : readLine? s = readLine? t := by
  rw [readLine?, readLine?, undecorate, undecorate, h]

/-- A blank line carries nothing. -/
theorem readLine?_of_blank (h : ∀ c ∈ line, isBlank c = true) : readLine? line = none := by
  have hnil : readLine? line = readLine? [] :=
    readLine?_congr (Text.trim_eq_nil_iff.mpr h)
  exact hnil

/-- A text may be cut at any line feed. -/
theorem carried_append_newline (s t : List Char) :
    carried (s ++ '\n' :: t) = carried s ++ carried t := by
  rw [carried, List.splitOn_append_cons_self, List.filterMap_append]
  rfl

/-- A text without line feeds is a single line. -/
theorem carried_of_not_mem (h : '\n' ∉ line) : carried line = (readLine? line).toList := by
  rw [carried, List.splitOn_eq_singleton h]
  cases hline : readLine? line <;> simp [hline]

/-- Blanks carry nothing, however many lines they are. -/
theorem carried_of_blank {text : List Char} (h : ∀ c ∈ text, isBlank c = true) :
    carried text = [] := by
  refine List.filterMap_eq_nil_iff.mpr fun line hline => readLine?_of_blank fun c hc => h c ?_
  rw [← Text.join_splitOn '\n' text]
  exact Text.mem_join_of_mem hline hc

/-- Blanks behind a text do not count, whether they stand in its last line or in lines of their
own. -/
theorem carried_append_of_blank (h : ∀ c ∈ t, isBlank c = true) (s : List Char) :
    carried (s ++ t) = carried s := by
  by_cases hs : '\n' ∈ s
  · obtain ⟨first, rest, rfl, hfirst⟩ := List.eq_append_cons_of_mem hs
    rw [List.append_assoc, List.cons_append, carried_append_newline, carried_append_newline,
      carried_append_of_blank h rest]
  · by_cases ht : '\n' ∈ t
    · obtain ⟨first, rest, rfl, hfirst⟩ := List.eq_append_cons_of_mem ht
      obtain ⟨hblank, hrest⟩ := List.forall_mem_append.mp h
      have hline : '\n' ∉ s ++ first := by simp [hs, hfirst]
      rw [← List.append_assoc, carried_append_newline, carried_of_not_mem hline,
        carried_of_not_mem hs, readLine?_congr (Text.trim_append_blank hblank s),
        carried_of_blank fun c hc => hrest c (List.mem_cons_of_mem _ hc), List.append_nil]
    · have hline : '\n' ∉ s ++ t := by simp [hs, ht]
      rw [carried_of_not_mem hline, carried_of_not_mem hs,
        readLine?_congr (Text.trim_append_blank h s)]
termination_by s.length

/-- Blanks in front of a text do not count. -/
theorem carried_of_blank_append (h : ∀ c ∈ s, isBlank c = true) (t : List Char) :
    carried (s ++ t) = carried t := by
  induction s with
  | nil => rfl
  | cons c s ih =>
    obtain ⟨hc, hs⟩ := List.forall_mem_cons.mp h
    rw [List.cons_append, ← ih hs]
    by_cases hnewline : c = '\n'
    · subst hnewline
      exact carried_append_newline [] (s ++ t)
    · obtain ⟨first, rest, hsplit⟩ := List.exists_cons_of_ne_nil (List.splitOn_ne_nil '\n' (s ++ t))
      have hfirst : readLine? (c :: first) = readLine? first :=
        readLine?_congr (Text.trim_append_of_blank (List.forall_mem_singleton.mpr hc) first)
      rw [carried, carried, List.splitOn_cons_eq_if_modifyHead, if_neg (by simpa using hnewline),
        hsplit, List.modifyHead_cons, List.filterMap_cons, List.filterMap_cons, hfirst]

/-- Blanks around a text do not count. -/
theorem carried_trim (text : List Char) : carried (trim text) = carried text := by
  obtain ⟨before, after, hbefore, hafter, htext⟩ := Text.exists_append_trim_append text
  have hcarried := carried_append_of_blank hafter (before ++ trim text)
  rwa [← htext, carried_of_blank_append hbefore, eq_comm] at hcarried

/-! ## Delimiters -/

/-- The text shows no delimiter at its two ends. -/
structure Bare (text : List Char) : Prop where
  opening : ¬ "/**".toList <+: trim text
  closing : ¬ "*/".toList <:+ trim text

/-- A text without delimiters is read as it is. -/
theorem Bare.lines_eq {text : List Char} (h : Bare text) : lines text = carried text := by
  rw [DocComment.lines_eq, interior, Text.dropLead_of_not_prefix h.opening,
    Text.dropEnd_of_not_suffix h.closing, carried_trim]

/-- Delimiters around a text are dropped. -/
theorem lines_delimited (text : List Char) :
    lines ("/**".toList ++ text ++ "*/".toList) = carried text := by
  have htrim : trim ("/**".toList ++ text ++ "*/".toList) =
      "/**".toList ++ (text ++ "*/".toList) := by
    rw [List.append_assoc]
    refine Text.trim_of_ends (fun c hc => ?_) (fun c hc => ?_)
    · obtain rfl := Option.some.inj hc
      decide
    · rw [← List.append_assoc, List.getLast?_append] at hc
      obtain rfl := Option.some.inj hc
      decide
  rw [DocComment.lines_eq, interior, htrim, Text.dropLead, Text.isPrefixOf?_append,
    Option.getD_some, Text.dropEnd, Text.isSuffixOf?_append, Option.getD_some]

/-- Texts without delimiters show none when a blank stands between them. -/
theorem Bare.append_cons (hs : Bare s) (ht : Bare t) (hb : isBlank b = true) :
    Bare (s ++ b :: t) where
  opening := by
    rw [Text.prefix_trim_append_cons (by decide) hb]
    split
    · exact ht.opening
    · exact hs.opening
  closing := by
    rw [Text.suffix_trim_append_cons (by decide) hb]
    split
    · exact hs.closing
    · exact ht.closing

/-! ## Joined lines -/

/-- A text carries what its lines carry, one by one. -/
theorem carried_join (h : ∀ line ∈ ls, '\n' ∉ line) :
    carried (Text.join '\n' ls) = ls.filterMap readLine? := by
  by_cases hls : ls = []
  · rw [hls]
    rfl
  · have hsplit : (Text.join '\n' ls).splitOn '\n' = ls := List.splitOn_intercalate '\n' h hls
    rw [carried, hsplit]

/-- Lines that agree one by one up to the blanks around them carry the same. -/
theorem filterMap_readLine?_congr (h : ls'.map trim = ls.map trim) :
    ls'.filterMap readLine? = ls.filterMap readLine? := by
  have hread : readLine? ∘ trim = readLine? :=
    funext fun line => readLine?_congr (Text.trim_trim line)
  rw [← hread, ← List.filterMap_map, h, List.filterMap_map]

/-- The first line that is not blank, trimmed. -/
def firstWritten (ls : List (List Char)) : Option (List Char) :=
  (ls.map trim).find? (!·.isEmpty)

/-- Blank lines in front are passed over. -/
theorem firstWritten_cons (line : List Char) (rest : List (List Char)) :
    firstWritten (line :: rest) =
      if trim line = [] then firstWritten rest else some (trim line) := by
  rw [firstWritten, List.map_cons, List.find?_cons]
  cases trim line <;> rfl

/-- The last line counts only if all before it are blank. -/
theorem firstWritten_concat (before : List (List Char)) (line : List Char) :
    firstWritten (before ++ [line]) = (firstWritten before).or (firstWritten [line]) := by
  rw [firstWritten, List.map_append, List.find?_append]
  rfl

/-- No line is found exactly if all lines are blank. -/
theorem firstWritten_eq_none_iff : firstWritten ls = none ↔ ∀ line ∈ ls, trim line = [] := by
  simp [firstWritten, List.find?_eq_none]

/-- Joined lines are blank exactly if every line is. -/
theorem trim_join_eq_nil_iff :
    trim (Text.join '\n' ls) = [] ↔ ∀ line ∈ ls, trim line = [] := by
  rw [Text.trim_eq_nil_iff]
  constructor
  · intro h line hline
    exact Text.trim_eq_nil_iff.mpr fun c hc => h c (Text.mem_join_of_mem hline hc)
  · intro h c hc
    rcases Text.mem_join hc with rfl | ⟨line, hline, hc⟩
    · decide
    · exact Text.trim_eq_nil_iff.mp (h line hline) c hc

/-- From the end too, no line is found exactly if the joined lines are blank. -/
theorem firstWritten_reverse_eq_none_iff :
    firstWritten ls.reverse = none ↔ trim (Text.join '\n' ls) = [] := by
  rw [firstWritten_eq_none_iff, trim_join_eq_nil_iff]
  simp only [List.mem_reverse]

/-- What joined lines start with is decided by the first line that is not blank. -/
theorem prefix_trim_join (hne : opening ≠ []) (hopening : ∀ c ∈ opening, isBlank c = false) :
    opening <+: trim (Text.join '\n' ls) ↔ ∃ line ∈ firstWritten ls, opening <+: line := by
  induction ls with
  | nil => simp [firstWritten, Text.trim_eq_nil_iff.mpr, hne]
  | cons line rest ih =>
    rw [firstWritten_cons]
    cases rest with
    | nil =>
      rw [Text.join_singleton]
      split
      · next hline => simp [hline, hne, firstWritten]
      · simp
    | cons next rest =>
      rw [Text.join_cons_cons, Text.prefix_trim_append_cons hopening (by decide)]
      split
      · exact ih
      · simp

/-- What joined lines end with is decided by the last line that is not blank. -/
theorem suffix_trim_join (hne : closing ≠ []) (hclosing : ∀ c ∈ closing, isBlank c = false) :
    closing <:+ trim (Text.join '\n' ls) ↔ ∃ line ∈ firstWritten ls.reverse, closing <:+ line := by
  induction ls with
  | nil => simp [firstWritten, Text.trim_eq_nil_iff.mpr, hne]
  | cons line rest ih =>
    rw [List.reverse_cons, firstWritten_concat]
    cases rest with
    | nil =>
      rw [Text.join_singleton, firstWritten_cons]
      split
      · next hline => simp [hline, hne, firstWritten]
      · simp [firstWritten]
    | cons next rest =>
      -- What stands behind the first line decides, unless all of it is blank.
      rw [Text.join_cons_cons, Text.suffix_trim_append_cons hclosing (by decide)]
      split
      · next hblank =>
        have hnone := firstWritten_reverse_eq_none_iff.mpr hblank
        rw [hnone, Option.none_or, firstWritten_cons]
        split
        · next hline => simp [hline, hne, firstWritten]
        · simp
      · next hblank =>
        have hsome : (firstWritten (next :: rest).reverse).isSome = true :=
          Option.isSome_iff_ne_none.mpr (mt firstWritten_reverse_eq_none_iff.mp hblank)
        rw [Option.or_of_isSome hsome]
        exact ih

/-- The delimiters of joined lines would stand in the first and in the last line that is not
blank. -/
theorem bare_join_iff : Bare (Text.join '\n' ls) ↔
    (∀ line ∈ firstWritten ls, ¬ "/**".toList <+: line) ∧
      ∀ line ∈ firstWritten ls.reverse, ¬ "*/".toList <:+ line := by
  have hopening : "/**".toList <+: trim (Text.join '\n' ls) ↔
      ∃ line ∈ firstWritten ls, "/**".toList <+: line := prefix_trim_join (by decide) (by decide)
  have hclosing : "*/".toList <:+ trim (Text.join '\n' ls) ↔
      ∃ line ∈ firstWritten ls.reverse, "*/".toList <:+ line :=
    suffix_trim_join (by decide) (by decide)
  constructor
  · rintro ⟨ho, hc⟩
    rw [hopening] at ho
    rw [hclosing] at hc
    exact ⟨fun line hline h => ho ⟨line, hline, h⟩, fun line hline h => hc ⟨line, hline, h⟩⟩
  · rintro ⟨ho, hc⟩
    refine ⟨?_, ?_⟩
    · rw [hopening]
      rintro ⟨line, hline, h⟩
      exact ho line hline h
    · rw [hclosing]
      rintro ⟨line, hline, h⟩
      exact hc line hline h

/-- Blanks around the lines do not matter for the delimiters. -/
theorem bare_join_congr (h : ls'.map trim = ls.map trim) (hbare : Bare (Text.join '\n' ls)) :
    Bare (Text.join '\n' ls') := by
  rw [bare_join_iff, firstWritten, firstWritten, List.map_reverse] at hbare ⊢
  rwa [h]

end PhpTypes.DocComment
