import Mathlib.Data.List.Induction
import PhpTypes.Proofs.DocComment.Lines

/-!
# Doc comments put together

A doc comment is read line by line: a line that opens a tag adds it behind the others, and a line of
running text continues the last tag, or the summary as long as there is no tag (`parse_eq_foldl`).
So reading can stop and go on at any line end, and what is read from a text that opens with a tag
does not depend on what stands before it (`parse_append_of_tag`).
-/

namespace PhpTypes

/-! ## Adding a line -/

/-- A text with a line behind it. -/
def extended (sep text line : String) : String :=
  if text = "" then line else text ++ sep ++ line

/-- A tag that is continued by a line. -/
def DocTag.extend (line : String) : DocTag → DocTag
  | .param tag => .param { tag with description := extended " " tag.description line }
  | .other tag => .other { tag with body := extended " " tag.body line }

namespace DocComment

open Text (isBlank)

/-- A comment without lines. -/
def empty : DocComment where
  summary := ""
  tags := []

/-- A comment that is continued by a line: it goes to the last tag, or to the summary if there is
none. -/
def extend (doc : DocComment) (line : String) : DocComment :=
  match doc.tags.getLast? with
  | none => { doc with summary := extended "\n" doc.summary line }
  | some tag => { doc with tags := doc.tags.dropLast ++ [tag.extend line] }

/-- A comment with one more line. -/
def addLine (doc : DocComment) : Line → DocComment
  | .tag name body => { doc with tags := doc.tags ++ [Section.toTag ⟨name, body, []⟩] }
  | .text content => doc.extend (.ofList content)

/-! ## Sections of more lines -/

/-- A section that is continued by a line. -/
def Section.extend (s : Section) (line : List Char) : Section :=
  { s with more := s.more ++ [line] }

/-- A line of running text belongs to what stands in front of the first tag. -/
theorem sections_text (content : List Char) (rest : List Line) :
    sections (.text content :: rest) = (content :: (sections rest).1, (sections rest).2) :=
  rfl

/-- A line that opens a tag starts a section with the text behind it. -/
theorem sections_tag (name body : List Char) (rest : List Line) :
    sections (.tag name body :: rest) =
      ([], ⟨name, body, (sections rest).1⟩ :: (sections rest).2) :=
  rfl

/-- A tag ends all sections before it. -/
theorem sections_append_tag (before : List Line) (name body : List Char) (rest : List Line) :
    sections (before ++ .tag name body :: rest) =
      ((sections before).1, (sections before).2 ++ (sections (.tag name body :: rest)).2) := by
  induction before with
  | nil => rfl
  | cons line before ih =>
    cases line with
    | text content => rw [List.cons_append, sections_text, ih, sections_text]
    | tag first more => rw [List.cons_append, sections_tag first, ih, sections_tag first]; rfl

/-- A line of running text belongs to the last section, or to none if there is no section. -/
theorem sections_append_text (before : List Line) (content : List Char) :
    sections (before ++ [.text content]) =
      match (sections before).2.getLast? with
      | none => ((sections before).1 ++ [content], [])
      | some last =>
        ((sections before).1, (sections before).2.dropLast ++ [last.extend content]) := by
  induction before with
  | nil => rfl
  | cons line before ih =>
    cases line with
    | text first =>
      rw [List.cons_append, sections_text, ih, sections_text]
      cases (sections before).2.getLast? <;> rfl
    | tag name body =>
      rw [List.cons_append, sections_tag, ih, sections_tag]
      cases (sections before).2 with
      | nil => rfl
      | cons next others =>
        have hlast := List.getLast?_eq_some_getLast (List.cons_ne_nil next others)
        rw [List.getLast?_cons_cons, hlast, List.dropLast_cons_cons]
        rfl

/-! ## Lines that carry text -/

/-- No line of running text is empty. -/
theorem ne_nil_of_text_mem_carried {text content : List Char}
    (h : Line.text content ∈ carried text) : content ≠ [] := by
  obtain ⟨line, -, hline⟩ := List.mem_filterMap.mp h
  rintro rfl
  rw [readLine?, Line.ofText?.eq_def] at hline
  split at hline
  · cases hline
  · split at hline <;> cases hline
  · next hne _ => exact hne (Line.text.inj (Option.some.inj hline))

/-- If no line of running text is empty, no section has an empty line. -/
theorem ne_nil_of_mem_sections {ls : List Line}
    (h : ∀ content, Line.text content ∈ ls → content ≠ []) :
    (∀ line ∈ (sections ls).1, line ≠ []) ∧
      ∀ s ∈ (sections ls).2, ∀ line ∈ s.more, line ≠ [] := by
  induction ls with
  | nil =>
    exact ⟨fun _ hline => absurd hline List.not_mem_nil, fun _ hs => absurd hs List.not_mem_nil⟩
  | cons line rest ih =>
    obtain ⟨hfree, hmore⟩ :=
      ih fun content hcontent => h content (List.mem_cons_of_mem line hcontent)
    cases line with
    | text content =>
      exact ⟨List.forall_mem_cons.mpr ⟨h content List.mem_cons_self, hfree⟩, hmore⟩
    | tag name body =>
      exact ⟨fun _ hline => absurd hline List.not_mem_nil, List.forall_mem_cons.mpr ⟨hfree, hmore⟩⟩

/-- Joined parts with one more part. -/
theorem ofList_join_concat {sep : Char} {parts : List (List Char)} (h : ∀ part ∈ parts, part ≠ [])
    (line : List Char) :
    String.ofList (Text.join sep (parts ++ [line])) =
      extended (.ofList [sep]) (.ofList (Text.join sep parts)) (.ofList line) := by
  rw [extended]
  cases parts with
  | nil => rw [List.nil_append, Text.join_singleton, Text.join_nil]; rfl
  | cons part rest =>
    have hne : String.ofList (Text.join sep (part :: rest)) ≠ "" := by
      obtain ⟨c, tail, hpart⟩ := List.exists_cons_of_ne_nil (h part List.mem_cons_self)
      have hc : c ∈ Text.join sep (part :: rest) :=
        Text.mem_join_of_mem List.mem_cons_self (hpart ▸ List.mem_cons_self)
      exact fun hempty => List.ne_nil_of_mem hc (String.ofList_eq_empty_iff.mp hempty)
    have hline : String.ofList (sep :: line) = .ofList [sep] ++ .ofList line := by
      rw [← String.ofList_append, List.singleton_append]
    rw [if_neg hne, Text.join_concat (List.cons_ne_nil part rest), String.ofList_append, hline,
      String.append_assoc]

/-- One more line of running text continues a text by that line. -/
theorem continued_concat {text line : List Char} {more : List (List Char)}
    (h : ∀ line ∈ more, line ≠ []) :
    continued text (more ++ [line]) = extended " " (continued text more) (.ofList line) := by
  rw [continued, continued]
  split
  · exact ofList_join_concat h line
  · next htext =>
    refine ofList_join_concat (List.forall_mem_cons.mpr ⟨by simpa using htext, h⟩) line

/-- One more line of running text continues a tag `@param` by that line. -/
theorem readParam_concat {body line : List Char} {more : List (List Char)}
    (h : ∀ line ∈ more, line ≠ []) :
    DocTag.param (readParam body (more ++ [line])) =
      (DocTag.param (readParam body more)).extend (.ofList line) := by
  have hcontinued (text : List Char) : continued text (more ++ [line]) =
      extended " " (continued text more) (.ofList line) := continued_concat h
  unfold readParam
  split
  dsimp only
  split
  · rw [hcontinued]
    rfl
  · rw [hcontinued]
    rfl

/-- A section with one more line is its tag, continued by the line. -/
theorem Section.toTag_extend {s : Section} (h : ∀ line ∈ s.more, line ≠ []) (line : List Char) :
    (s.extend line).toTag = s.toTag.extend (.ofList line) := by
  have hsame : (s.extend line).name = s.name := rfl
  rw [Section.toTag, Section.toTag, hsame]
  split
  · exact readParam_concat h
  · exact congrArg (fun body => DocTag.other ⟨.ofList s.name, body⟩) (continued_concat h)

/-! ## Reading line by line -/

/-- What the lines of a comment say. -/
def ofLines (ls : List Line) : DocComment where
  summary := .ofList (Text.join '\n' (sections ls).1)
  tags := (sections ls).2.map Section.toTag

/-- A comment says what its lines say. -/
theorem parse_eq (comment : String) : parse comment = ofLines (lines comment.toList) :=
  rfl

/-- A comment with one more line is the comment of the lines before, to which the line is added. -/
theorem ofLines_concat {ls : List Line} (h : ∀ content, Line.text content ∈ ls → content ≠ [])
    (line : Line) : ofLines (ls ++ [line]) = (ofLines ls).addLine line := by
  obtain ⟨hfree, hmore⟩ := ne_nil_of_mem_sections h
  cases line with
  | tag name body =>
    simp only [ofLines, addLine, sections_append_tag, List.map_append]
    rfl
  | text content =>
    simp only [ofLines, addLine, extend, sections_append_text, List.getLast?_map]
    cases hlast : (sections ls).2.getLast? with
    | none =>
      rw [List.getLast?_eq_none_iff] at hlast
      simp only [hlast, Option.map_none]
      rw [ofList_join_concat hfree]
    | some last =>
      simp only [Option.map_some, List.map_append, List.map_dropLast]
      rw [← Section.toTag_extend (hmore last (List.mem_of_getLast? hlast))]
      rfl

/-- **A doc comment is read line by line.** -/
theorem parse_eq_foldl (comment : String) :
    parse comment = (lines comment.toList).foldl addLine empty := by
  have hfold (ls : List Line) (h : ∀ content, Line.text content ∈ ls → content ≠ []) :
      ofLines ls = ls.foldl addLine empty := by
    induction ls using List.reverseRecOn with
    | nil => rfl
    | append_singleton ls line ih =>
      have hls := fun content hcontent => h content (List.mem_append_left [line] hcontent)
      rw [ofLines_concat hls, ih hls, List.foldl_append]
      rfl
  exact hfold _ fun content hcontent => ne_nil_of_text_mem_carried hcontent

/-! ## Texts put together -/

/-- The first line of the text that is not empty without its decoration opens a tag: it starts with
`@`, and no blank follows. -/
def OpensWithTag (text : List Char) : Prop :=
  ∃ c rest, ((text.splitOn '\n').map undecorate).find? (!·.isEmpty) = some ('@' :: c :: rest) ∧
    isBlank c = false

/-- A text that opens with a tag carries a tag first. -/
theorem OpensWithTag.carried {text : List Char} (h : OpensWithTag text) :
    ∃ name body rest, carried text = .tag name body :: rest := by
  obtain ⟨c, rest, hfind, hc⟩ := h
  obtain ⟨-, before, after, hlines, hbefore⟩ := List.find?_eq_some_iff_append.mp hfind
  have hempty : before.filterMap Line.ofText? = [] := by
    refine List.filterMap_eq_nil_iff.mpr fun line hline => ?_
    have hnil : line = [] := by simpa using hbefore line hline
    rw [hnil, Line.ofText?]
  have hcarried : DocComment.carried text =
      (before ++ ('@' :: c :: rest) :: after).filterMap Line.ofText? := by
    rw [← hlines, List.filterMap_map]
    rfl
  have hname : (c :: rest).takeWhile (!isBlank ·) = c :: rest.takeWhile (!isBlank ·) :=
    List.takeWhile_cons_of_pos (by simp [hc])
  rw [hcarried, List.filterMap_append, hempty, List.nil_append, List.filterMap_cons, Line.ofText?,
    hname]
  exact ⟨_, _, _, rfl⟩

/-- The text is a single line of running text. -/
structure IsRunningText (line : List Char) : Prop where
  bare : Bare line
  oneLine : '\n' ∉ line
  nonempty : undecorate line ≠ []
  noTag : (undecorate line).head? ≠ some '@'

/-- A line of running text carries itself without its decoration. -/
theorem IsRunningText.carried {line : List Char} (h : IsRunningText line) :
    carried line = [.text (undecorate line)] := by
  have hline : Line.ofText? (undecorate line) = some (.text (undecorate line)) := by
    rw [Line.ofText?.eq_def]
    split
    · next hnil => exact absurd hnil h.nonempty
    · next hat => exact absurd (congrArg List.head? hat) h.noTag
    · rfl
  rw [carried_of_not_mem h.oneLine, readLine?, hline]
  rfl

variable {s t : String}

/-- The characters of two texts with a line feed between them. -/
theorem toList_append_newline (s t : String) :
    (s ++ "\n" ++ t).toList = s.toList ++ '\n' :: t.toList := by
  simp

/-- Texts without delimiters show none when a line feed stands between them. -/
theorem Bare.append_newline (hs : Bare s.toList) (ht : Bare t.toList) :
    Bare (s ++ "\n" ++ t).toList := by
  rw [toList_append_newline]
  exact hs.append_cons ht (by decide)

/-- The lines of the two texts come one after the other. -/
theorem lines_append_newline (hs : Bare s.toList) (ht : Bare t.toList) :
    lines (s ++ "\n" ++ t).toList = lines s.toList ++ lines t.toList := by
  rw [(hs.append_newline ht).lines_eq, hs.lines_eq, ht.lines_eq, toList_append_newline,
    carried_append_newline]

/-- A line of running text continues what is read before it. -/
theorem parse_append_runningText {line : String} (hs : Bare s.toList)
    (hline : IsRunningText line.toList) :
    parse (s ++ "\n" ++ line) = (parse s).extend (.ofList (undecorate line.toList)) := by
  rw [parse_eq_foldl, parse_eq_foldl, lines_append_newline hs hline.bare, List.foldl_append,
    hline.bare.lines_eq, hline.carried, List.foldl_cons, List.foldl_nil, addLine]

/-- What is read from the second text adds its tags, of which there is at least one. -/
theorem parse_append_tag (hs : Bare s.toList) (ht : Bare t.toList)
    (htag : OpensWithTag t.toList) :
    parse (s ++ "\n" ++ t) = ⟨(parse s).summary, (parse s).tags ++ (parse t).tags⟩ ∧
      (parse t).tags ≠ [] := by
  obtain ⟨name, body, rest, hrest⟩ := htag.carried
  rw [parse_eq, parse_eq, parse_eq, lines_append_newline hs ht, ht.lines_eq, hrest]
  refine ⟨?_, List.cons_ne_nil _ _⟩
  simp only [ofLines, sections_append_tag, List.map_append]

/-- **Doc comments can be cut in front of a tag.** What stands before is read as if nothing
followed, and what follows is read as if nothing stood before. A line of running text behind it
continues the last tag and changes nothing else. -/
theorem parse_append_of_tag (hs : Bare s.toList) (ht : Bare t.toList)
    (htag : OpensWithTag t.toList) :
    parse (s ++ "\n" ++ t) = ⟨(parse s).summary, (parse s).tags ++ (parse t).tags⟩ ∧
    ∀ line, IsRunningText line.toList → ∃ tags last, (parse t).tags = tags ++ [last] ∧
      parse (s ++ "\n" ++ t ++ "\n" ++ line) = ⟨(parse s).summary,
        (parse s).tags ++ tags ++ [last.extend (.ofList (undecorate line.toList))]⟩ := by
  obtain ⟨hboth, hne⟩ := parse_append_tag hs ht htag
  refine ⟨hboth, fun line hline => ?_⟩
  obtain ⟨tags, last, htags⟩ : ∃ tags last, (parse t).tags = tags ++ [last] :=
    ⟨_, _, (List.dropLast_concat_getLast hne).symm⟩
  refine ⟨tags, last, htags, ?_⟩
  rw [parse_append_runningText (hs.append_newline ht) hline, hboth, htags, ← List.append_assoc]
  simp only [extend, List.getLast?_concat, List.dropLast_concat]

/-- A summary and a tag that goes on in the next line, with a tag and running text behind them. -/
theorem parse_append_of_tag_of_two_tags :
    let s := "Sums up.\n * @param int $a the first\n   of all"
    let t := " *\n * @return int the sum"
    let line := " * of both"
    (Bare s.toList ∧ Bare t.toList ∧ OpensWithTag t.toList ∧ IsRunningText line.toList) ∧
      parse (s ++ "\n" ++ t) = ⟨"Sums up.",
        [.param ⟨some "a", some "int", "the first of all", false⟩,
          .other ⟨"return", "int the sum"⟩]⟩ ∧
      parse (s ++ "\n" ++ t ++ "\n" ++ line) = ⟨"Sums up.",
        [.param ⟨some "a", some "int", "the first of all", false⟩,
          .other ⟨"return", "int the sum of both"⟩]⟩ := by
  intro s t line
  have hs : Bare s.toList := ⟨by decide, by decide⟩
  have ht : Bare t.toList := ⟨by decide, by decide⟩
  have htag : OpensWithTag t.toList := ⟨'r', "eturn int the sum".toList, by decide, by decide⟩
  have hline : IsRunningText line.toList :=
    ⟨⟨by decide, by decide⟩, by decide, by decide, by decide⟩
  obtain ⟨hboth, hmore⟩ := parse_append_of_tag hs ht htag
  obtain ⟨tags, last, htags, hlast⟩ := hmore line hline
  have ht' : (parse t).tags = [] ++ [.other ⟨"return", "int the sum"⟩] := by decide
  obtain ⟨rfl, hsame⟩ := List.append_inj' (htags.symm.trans ht') rfl
  obtain rfl := List.singleton_inj.mp hsame
  refine ⟨⟨hs, ht, htag, hline⟩, ?_, ?_⟩
  · rw [hboth]
    decide
  · rw [hlast]
    decide

end DocComment

end PhpTypes
