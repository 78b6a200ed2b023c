import PhpTypes.Text.Pieces

/-!
# Trimmed texts and joined pieces

Trimming drops the blanks around a text (`trim_append_append`) and leaves a text alone if no
character at its two ends is of the class to be dropped (`trim_of_ends`). Joined pieces have the
characters of the pieces, and their ends are those of the first and of the last piece.
-/

namespace PhpTypes.Text

/-! ## Trimming -/

/-- Nothing is dropped at the end if the last character is not of the class. -/
theorem dropEndWhile_of_getLast? {p : Char → Bool} {text : List Char}
    (h : ∀ c, text.getLast? = some c → p c = false) : dropEndWhile p text = text := by
  cases hlast : text.getLast? with
  | none =>
    rw [List.getLast?_eq_none_iff] at hlast
    rw [hlast]
    rfl
  | some c =>
    obtain ⟨rest, rfl⟩ := List.getLast?_eq_some_iff.mp hlast
    simp [dropEndWhile, h c hlast]

/-- Nothing is trimmed at the start if the first character is no blank. -/
theorem trimStart_of_head? {text : List Char} (h : ∀ c, text.head? = some c → isBlank c = false) :
    trimStart text = text := by
  cases text with
  | nil => rfl
  | cons c rest => rw [trimStart, List.dropWhile_cons, if_neg (by simp [h c rfl])]

/-- A text without blanks at its ends stays as it is. -/
theorem trim_of_ends {text : List Char} (hfirst : ∀ c, text.head? = some c → isBlank c = false)
    (hlast : ∀ c, text.getLast? = some c → isBlank c = false) : trim text = text := by
  rw [trim, trimEnd, dropEndWhile_of_getLast? hlast, trimStart_of_head? hfirst]

/-- Blanks in front of characters that are none are kept, unless nothing else precedes them. -/
theorem trim_append_of_ends (text : List Char) {tail : List Char} (hne : tail ≠ [])
    (hfirst : ∀ c, tail.head? = some c → isBlank c = false)
    (hlast : ∀ c, tail.getLast? = some c → isBlank c = false) :
    trim (text ++ tail) = trimStart text ++ tail := by
  have hend : trimEnd (text ++ tail) = text ++ tail := by
    refine dropEndWhile_of_getLast? fun c hc => ?_
    rw [List.getLast?_append, Option.or_of_isSome (List.getLast?_isSome.mpr hne)] at hc
    exact hlast c hc
  have htail : tail.dropWhile isBlank = tail := trimStart_of_head? hfirst
  rw [trim, hend, trimStart, List.dropWhile_append, htail, trimStart]
  split
  · next hnil => rw [List.isEmpty_iff.mp hnil, List.nil_append]
  · rfl

/-- A character that is no blank stays at the end. -/
theorem getLast?_trim_of_not_blank {text : List Char} {c : Char} (h : text.getLast? = some c)
    (hblank : isBlank c = false) : (trim text).getLast? = some c := by
  obtain ⟨before, rfl⟩ := List.getLast?_eq_some_iff.mp h
  have hends : ∀ d, some c = some d → isBlank d = false := by
    rintro d ⟨⟩
    exact hblank
  rw [trim_append_of_ends before (List.cons_ne_nil c []) hends hends]
  exact List.getLast?_concat

/-- Blanks in front of a text are trimmed off with those at its own start. -/
theorem trimStart_append_of_blank {before : List Char} (h : ∀ c ∈ before, isBlank c = true)
    (text : List Char) : trimStart (before ++ text) = trimStart text :=
  List.dropWhile_append_of_pos h

/-- A character that is no blank, with all that follows it, is not trimmed off at the start. -/
theorem trimStart_append_cons {sep : Char} (hsep : isBlank sep = false) (s t : List Char) :
    trimStart (s ++ sep :: t) = trimStart s ++ sep :: t := by
  rw [trimStart, List.dropWhile_append, List.dropWhile_cons_of_neg (by simp [hsep]), trimStart]
  split
  · next hnil => rw [List.isEmpty_iff.mp hnil, List.nil_append]
  · rfl

/-- Characters of the class behind a text are dropped with those at its own end. -/
theorem dropEndWhile_append_of_pos {p : Char → Bool} {after : List Char}
    (h : ∀ c ∈ after, p c = true) (text : List Char) :
    dropEndWhile p (text ++ after) = dropEndWhile p text := by
  rw [dropEndWhile, List.reverse_append, List.dropWhile_append_of_pos, dropEndWhile]
  exact fun c hc => h c (List.mem_reverse.mp hc)

/-- Blanks behind a text are trimmed off with those at its own end. -/
theorem trimEnd_append_of_blank {after : List Char} (h : ∀ c ∈ after, isBlank c = true)
    (text : List Char) : trimEnd (text ++ after) = trimEnd text :=
  dropEndWhile_append_of_pos h text

/-- A text is what trimming leaves at its end and the blanks behind. -/
theorem exists_trimEnd_append (text : List Char) :
    ∃ after, (∀ c ∈ after, isBlank c = true) ∧ text = trimEnd text ++ after := by
  refine ⟨(text.reverse.takeWhile isBlank).reverse, fun c hc => ?_, ?_⟩
  · exact List.all_eq_true.mp List.all_takeWhile c (List.mem_reverse.mp hc)
  · rw [trimEnd, dropEndWhile, ← List.reverse_append, List.takeWhile_append_dropWhile,
      List.reverse_reverse]

/-- A text is the blanks at its start and what trimming leaves behind them. -/
theorem exists_append_trimStart (text : List Char) :
    ∃ before, (∀ c ∈ before, isBlank c = true) ∧ text = before ++ trimStart text :=
  ⟨text.takeWhile isBlank, List.all_eq_true.mp List.all_takeWhile,
    List.takeWhile_append_dropWhile.symm⟩

/-- A text is what trimming leaves with the blanks around it. -/
theorem exists_append_trim_append (text : List Char) :
    ∃ before after, (∀ c ∈ before, isBlank c = true) ∧ (∀ c ∈ after, isBlank c = true) ∧
      text = before ++ trim text ++ after := by
  obtain ⟨after, hafter, htext⟩ := exists_trimEnd_append text
  obtain ⟨before, hbefore, hend⟩ := exists_append_trimStart (trimEnd text)
  refine ⟨before, after, hbefore, hafter, ?_⟩
  rw [trim, ← hend, ← htext]

/-- Blanks around a text are trimmed off with the blanks at its own ends. -/
theorem trim_append_append {before after : List Char} (hbefore : ∀ c ∈ before, isBlank c = true)
    (hafter : ∀ c ∈ after, isBlank c = true) (text : List Char) :
    trim (before ++ text ++ after) = trim text := by
  have hblank : trimEnd before = [] := by
    rw [← List.nil_append before, trimEnd_append_of_blank hbefore]
    rfl
  have hend : trimEnd (before ++ text) =
      if trimEnd text = [] then trimEnd before else before ++ trimEnd text := by
    simp only [trimEnd, dropEndWhile, List.reverse_append, List.dropWhile_append,
      List.isEmpty_iff, List.reverse_eq_nil_iff, apply_ite List.reverse, List.reverse_reverse]
  rw [trim, trimEnd_append_of_blank hafter, hend, trim]
  split
  · next hnil => rw [hnil, hblank]
  · exact trimStart_append_of_blank hbefore _

/-- The start may be trimmed once more, before the two ends are. -/
theorem trim_trimStart (text : List Char) : trim (trimStart text) = trim text := by
  obtain ⟨before, hbefore, htext⟩ := exists_append_trimStart text
  have htrim := trim_append_append hbefore (fun c hc => absurd hc List.not_mem_nil) (trimStart text)
  rwa [List.append_nil, ← htext, eq_comm] at htrim

/-- The end may be trimmed once more, before the two ends are. -/
theorem trim_trimEnd (text : List Char) : trim (trimEnd text) = trim text := by
  obtain ⟨after, hafter, htext⟩ := exists_trimEnd_append text
  have htrim := trim_append_append (fun c hc => absurd hc List.not_mem_nil) hafter (trimEnd text)
  rwa [List.nil_append, ← htext, eq_comm] at htrim

/-- A trimmed text stays as it is. -/
theorem trim_trim (text : List Char) : trim (trim text) = trim text :=
  (trim_trimStart (trimEnd text)).trans (trim_trimEnd text)

/-- Only the end is trimmed behind a character that is no blank. -/
theorem trim_cons_of_not_blank {c : Char} (h : isBlank c = false) (text : List Char) :
    trim (c :: text) = c :: trimEnd text := by
  have hend : trimEnd (c :: text) = c :: trimEnd text := by
    rw [trimEnd, dropEndWhile, List.reverse_cons, List.dropWhile_append,
      List.dropWhile_cons_of_neg (by simp [h]), trimEnd, dropEndWhile]
    split
    · next hnil => rw [List.isEmpty_iff.mp hnil, List.reverse_nil, List.reverse_singleton]
    · exact List.reverse_concat
  rw [trim, hend]
  exact trimStart_of_head? fun d hd => by rwa [← Option.some.inj hd]

/-- Trimming the start adds no character. -/
theorem mem_of_mem_trimStart {text : List Char} {c : Char} (hc : c ∈ trimStart text) : c ∈ text :=
  (List.dropWhile_sublist _).mem hc

/-- Dropping characters at the end adds none. -/
theorem mem_of_mem_dropEndWhile {p : Char → Bool} {text : List Char} {c : Char}
    (h : c ∈ dropEndWhile p text) : c ∈ text := by
  rw [dropEndWhile, List.mem_reverse] at h
  exact List.mem_reverse.mp ((List.dropWhile_sublist p).mem h)

/-- Trimming adds no character. -/
theorem mem_of_mem_trim {text : List Char} {c : Char} (h : c ∈ trim text) : c ∈ text :=
  mem_of_mem_dropEndWhile (mem_of_mem_trimStart h)

/-! ## Blanks at the ends -/

/-- The first character, if there is one, is no blank. -/
def NoBlankFirst (text : List Char) : Prop :=
  ∀ c, text.head? = some c → isBlank c = false

/-- The last character, if there is one, is no blank. -/
def NoBlankLast (text : List Char) : Prop :=
  ∀ c, text.getLast? = some c → isBlank c = false

/-- A text without blanks does not start with one. -/
theorem NoBlankFirst.of_forall {text : List Char} (h : ∀ c ∈ text, isBlank c = false) :
    NoBlankFirst text :=
  fun c hc => h c (List.mem_of_head? hc)

/-- A text without blanks does not end with one. -/
theorem NoBlankLast.of_forall {text : List Char} (h : ∀ c ∈ text, isBlank c = false) :
    NoBlankLast text :=
  fun c hc => h c (List.mem_of_getLast? hc)

/-- Once its start is trimmed, a text does not start with a blank. -/
theorem noBlankFirst_trimStart (text : List Char) : NoBlankFirst (trimStart text) := by
  intro c hc
  have hnot := List.head?_dropWhile_not isBlank text
  rw [trimStart] at hc
  rw [hc] at hnot
  simpa using hnot

/-- Once its end is trimmed, a text does not end with a blank. -/
theorem noBlankLast_trimEnd (text : List Char) : NoBlankLast (trimEnd text) := by
  intro c hc
  rw [trimEnd, dropEndWhile, List.getLast?_reverse] at hc
  exact noBlankFirst_trimStart text.reverse c hc

/-- Trimming the start brings no blank to the end. -/
theorem NoBlankLast.trimStart {text : List Char} (h : NoBlankLast text) :
    NoBlankLast (trimStart text) := by
  intro c hc
  obtain ⟨before, -, htext⟩ := exists_append_trimStart text
  refine h c ?_
  rw [htext, List.getLast?_append, hc, Option.some_or]

/-- Something is left at the start of a text whose last character is no blank. -/
theorem trimStart_ne_nil {text : List Char} (hne : text ≠ []) (hlast : NoBlankLast text) :
    Text.trimStart text ≠ [] := by
  intro hnil
  obtain ⟨before, hbefore, htext⟩ := exists_append_trimStart text
  rw [hnil, List.append_nil] at htext
  have hblank := hbefore (text.getLast hne) (htext ▸ List.getLast_mem hne)
  rw [hlast _ (List.getLast?_eq_some_getLast hne)] at hblank
  cases hblank

/-- A trimmed text does not start with a blank. -/
theorem noBlankFirst_trim (text : List Char) : NoBlankFirst (trim text) :=
  noBlankFirst_trimStart _

/-- A trimmed text does not end with a blank. -/
theorem noBlankLast_trim (text : List Char) : NoBlankLast (trim text) :=
  (noBlankLast_trimEnd text).trimStart

/-- A text that trimming leaves alone does not start with a blank. -/
theorem noBlankFirst_of_trim_eq {text : List Char} (h : trim text = text) : NoBlankFirst text :=
  h ▸ noBlankFirst_trim text

/-- A text that trimming leaves alone does not end with a blank. -/
theorem noBlankLast_of_trim_eq {text : List Char} (h : trim text = text) : NoBlankLast text :=
  h ▸ noBlankLast_trim text

/-- What follows a separator that is no blank does not matter for the first character. -/
theorem NoBlankFirst.append_cons {s : List Char} (h : NoBlankFirst s) {sep : Char}
    (hsep : isBlank sep = false) (t : List Char) : NoBlankFirst (s ++ sep :: t) := by
  intro c hc
  cases s with
  | nil => rwa [← Option.some.inj hc]
  | cons d s => exact h c hc

/-- What precedes a separator that is no blank does not matter for the last character. -/
theorem NoBlankLast.append_cons {t : List Char} (h : NoBlankLast t) {sep : Char}
    (hsep : isBlank sep = false) (s : List Char) : NoBlankLast (s ++ sep :: t) := by
  intro c hc
  rw [List.getLast?_append, List.getLast?_cons, Option.some_or] at hc
  cases hlast : t.getLast? with
  | none => rwa [← Option.some.inj hc, hlast]
  | some d =>
    rw [hlast] at hc
    exact h c (hlast.trans hc)

/-! ## Known leads -/

/-- A lead that a text does not start with is not found. -/
theorem isPrefixOf?_eq_none {lead text : List Char} (h : ¬ lead <+: text) :
    lead.isPrefixOf? text = none := by
  cases hlead : lead.isPrefixOf? text with
  | none => rfl
  | some rest => exact absurd ⟨rest, append_of_isPrefixOf? hlead⟩ h

/-- A text that does not start with the lead is left alone. -/
theorem dropLead_of_not_prefix {lead text : List Char} (h : ¬ lead <+: text) :
    dropLead lead text = text := by
  rw [dropLead, isPrefixOf?_eq_none h, Option.getD_none]

/-- A text that does not end with the closing part is left alone. -/
theorem dropEnd_of_not_suffix {close text : List Char} (h : ¬ close <:+ text) :
    dropEnd close text = text := by
  cases hclose : close.isSuffixOf? text with
  | none => rw [dropEnd, hclose, Option.getD_none]
  | some rest => exact absurd ⟨rest, append_of_isSuffixOf? hclose⟩ h

/-- A character is dropped at the start of a text. -/
theorem dropLead_singleton_cons (c : Char) (text : List Char) :
    dropLead [c] (c :: text) = text := by
  rw [dropLead, isPrefixOf?_cons_cons, if_pos (beq_self_eq_true c), isPrefixOf?_nil,
    Option.getD_some]

/-- A text that starts with another character is left alone. -/
theorem dropLead_of_head?_ne {c : Char} {text : List Char} (h : text.head? ≠ some c) :
    dropLead [c] text = text := by
  cases text with
  | nil => rfl
  | cons d rest =>
    have hne : c ≠ d := fun heq => h (by rw [heq]; rfl)
    rw [dropLead, isPrefixOf?_cons_cons, if_neg (by simpa using hne), Option.getD_none]

/-! ## Joining -/

@[simp] theorem join_nil (sep : Char) : join sep [] = [] :=
  List.intercalate_nil

@[simp] theorem join_singleton (sep : Char) (part : List Char) : join sep [part] = part :=
  List.intercalate_singleton

/-- A separator stands between the first two pieces. -/
theorem join_cons_cons (sep : Char) (part next : List Char) (rest : List (List Char)) :
    join sep (part :: next :: rest) = part ++ sep :: join sep (next :: rest) := by
  rw [join, List.intercalate_cons_cons, List.append_assoc, List.singleton_append, join]

/-- A separator stands in front of the last piece, unless it is the only one. -/
theorem join_concat {sep : Char} {parts : List (List Char)} (h : parts ≠ []) (last : List Char) :
    join sep (parts ++ [last]) = join sep parts ++ sep :: last := by
  induction parts with
  | nil => exact absurd rfl h
  | cons part rest ih =>
    cases rest with
    | nil =>
      rw [List.singleton_append, join_cons_cons, join_singleton, join_singleton]
    | cons next rest =>
      have hrest := ih (List.cons_ne_nil next rest)
      rw [List.cons_append] at hrest
      rw [List.cons_append, List.cons_append, join_cons_cons, hrest, join_cons_cons,
        List.append_assoc, List.cons_append]

/-- Joined pieces consist of the separator and of the characters of the pieces. -/
theorem mem_join {sep : Char} {parts : List (List Char)} {c : Char} (h : c ∈ join sep parts) :
    c = sep ∨ ∃ part ∈ parts, c ∈ part := by
  induction parts with
  | nil => exact absurd h List.not_mem_nil
  | cons part rest ih =>
    cases rest with
    | nil =>
      rw [join_singleton] at h
      exact .inr ⟨part, List.mem_cons_self, h⟩
    | cons next rest =>
      rw [join_cons_cons] at h
      rcases List.mem_append.mp h with hpart | hrest
      · exact .inr ⟨part, List.mem_cons_self, hpart⟩
      · rcases List.mem_cons.mp hrest with hsep | hrest
        · exact .inl hsep
        · rcases ih hrest with hsep | ⟨other, hother, hc⟩
          · exact .inl hsep
          · exact .inr ⟨other, List.mem_cons_of_mem part hother, hc⟩

/-- Joined pieces have all characters of the pieces. -/
theorem mem_join_of_mem {sep : Char} {parts : List (List Char)} {part : List Char} {c : Char}
    (hpart : part ∈ parts) (hc : c ∈ part) : c ∈ join sep parts := by
  induction parts with
  | nil => exact absurd hpart List.not_mem_nil
  | cons first rest ih =>
    cases rest with
    | nil =>
      rwa [join_singleton, ← List.mem_singleton.mp hpart]
    | cons next rest =>
      rw [join_cons_cons]
      rcases List.mem_cons.mp hpart with rfl | hpart
      · exact List.mem_append_left _ hc
      · exact List.mem_append_right _ (List.mem_cons_of_mem sep (ih hpart))

/-- The pieces of a text are those before any one separator and those after it. -/
theorem pieces_append_cons (sep : Char) (s t : List Char) :
    pieces sep (s ++ sep :: t) = pieces sep s ++ pieces sep t := by
  rw [pieces, List.splitOn_append_cons_self, List.filter_append]
  rfl

/-- A text that does not start with `sep` starts with its first piece. -/
theorem exists_pieces_cons {sep c : Char} (hc : c ≠ sep) (rest : List Char) :
    ∃ piece others, pieces sep (c :: rest) = (c :: piece) :: others := by
  obtain ⟨first, others, hsplit⟩ := List.exists_cons_of_ne_nil (List.splitOn_ne_nil sep rest)
  have hcut : (c :: rest).splitOn sep = (c :: first) :: others := by
    rw [List.splitOn_cons_eq_if_modifyHead, if_neg (by simpa using hc), hsplit,
      List.modifyHead_cons]
  rw [pieces, hcut]
  exact ⟨first, _, List.filter_cons_of_pos rfl⟩

/-- The pieces of joined pieces are these pieces. -/
theorem pieces_join {sep : Char} {parts : List (List Char)}
    (h : ∀ part ∈ parts, part ≠ [] ∧ sep ∉ part) : pieces sep (join sep parts) = parts := by
  by_cases hnil : parts = []
  · rw [hnil]
    rfl
  · have hsplit : (join sep parts).splitOn sep = parts :=
      List.splitOn_intercalate sep (fun part hpart => (h part hpart).2) hnil
    rw [pieces, hsplit]
    refine List.filter_eq_self.mpr fun part hpart => ?_
    simpa using (h part hpart).1

/-- A text without separators is its only piece. -/
theorem pieces_of_not_mem {sep : Char} {text : List Char} (hne : text ≠ []) (hsep : sep ∉ text) :
    pieces sep text = [text] := by
  have hjoin := pieces_join (List.forall_mem_singleton.mpr ⟨hne, hsep⟩)
  rwa [join_singleton] at hjoin

/-- At the start of joined pieces, blanks are trimmed off the first piece only. -/
theorem pieces_trimStart_join {sep : Char} (hsep : isBlank sep = false) {part : List Char}
    {rest : List (List Char)} (h : ∀ other ∈ rest, other ≠ [] ∧ sep ∉ other) :
    pieces sep (trimStart (join sep (part :: rest))) = pieces sep (trimStart part) ++ rest := by
  cases rest with
  | nil => rw [join_singleton, List.append_nil]
  | cons next rest =>
    rw [join_cons_cons, trimStart_append_cons hsep, pieces_append_cons, pieces_join h]

/-- Joining undoes splitting. -/
theorem join_splitOn (sep : Char) (text : List Char) : join sep (text.splitOn sep) = text :=
  List.intercalate_splitOn sep

/-- Pieces have no characters but those of the text. -/
theorem mem_of_mem_pieces {sep : Char} {text piece : List Char} (h : piece ∈ pieces sep text)
    {c : Char} (hc : c ∈ piece) : c ∈ text := by
  rw [← join_splitOn sep text]
  exact mem_join_of_mem (List.mem_filter.mp h).1 hc

/-- The first character of joined pieces is that of the first one. -/
theorem head?_join {sep : Char} {part : List Char} {rest : List (List Char)} (h : part ≠ []) :
    (join sep (part :: rest)).head? = part.head? := by
  cases rest with
  | nil => rw [join_singleton]
  | cons next rest =>
    cases part with
    | nil => exact absurd rfl h
    | cons c part => rw [join_cons_cons, List.cons_append, List.head?_cons, List.head?_cons]

/-- Joined pieces start with a blank only if the first piece does. -/
theorem NoBlankFirst.join {sep : Char} {parts : List (List Char)} (hne : ∀ part ∈ parts, part ≠ [])
    (h : ∀ part, parts.head? = some part → NoBlankFirst part) : NoBlankFirst (join sep parts) := by
  cases parts with
  | nil => exact fun c hc => nomatch hc
  | cons part rest =>
    rw [NoBlankFirst, head?_join (hne part List.mem_cons_self)]
    exact h part rfl

/-- The last character of joined pieces is that of the last one. -/
theorem getLast?_join {sep : Char} {parts : List (List Char)} {last : List Char} {c : Char}
    (hlast : parts.getLast? = some last) (hc : last.getLast? = some c) :
    (join sep parts).getLast? = some c := by
  induction parts with
  | nil => cases hlast
  | cons part rest ih =>
    cases rest with
    | nil =>
      obtain rfl : part = last := by simpa using hlast
      rw [join_singleton, hc]
    | cons next rest =>
      rw [List.getLast?_cons_cons] at hlast
      rw [join_cons_cons, List.getLast?_append, List.getLast?_cons, ih hlast]
      rfl

/-- Joined pieces end with a blank only if the last piece does. -/
theorem NoBlankLast.join {sep : Char} {parts : List (List Char)} (hne : ∀ part ∈ parts, part ≠ [])
    (h : ∀ part, parts.getLast? = some part → NoBlankLast part) : NoBlankLast (join sep parts) := by
  intro c hc
  cases hlast : parts.getLast? with
  | none =>
    rw [List.getLast?_eq_none_iff] at hlast
    rw [hlast] at hc
    cases hc
  | some part =>
    have hsome := List.getLast?_eq_some_getLast (hne part (List.mem_of_getLast? hlast))
    rw [getLast?_join hlast hsome] at hc
    exact h part hlast c (hsome.trans hc)

end PhpTypes.Text
