import PhpTypes.Text.Blank

/-!
# Pieces of a text

Cutting a text at a character, dropping a lead or an end that is known, and putting pieces
together with a character between them.
-/

namespace PhpTypes.Text

/-- The non-empty pieces between the occurrences of `sep`. -/
def pieces (sep : Char) (text : List Char) : List (List Char) :=
  (text.splitOn sep).filter fun piece => !piece.isEmpty

/-- The pieces one after the other with `sep` between neighbours. -/
def join (sep : Char) (parts : List (List Char)) : List Char :=
  [sep].intercalate parts

/-- The text before the first `sep` and the text after it, if `sep` occurs. -/
def cutAt? (sep : Char) : List Char → Option (List Char × List Char)
  | [] => none
  | c :: rest =>
    if c = sep then some ([], rest)
    else (cutAt? sep rest).map fun (before, after) => (c :: before, after)

/-- The first run of characters that are not blank, and what follows it. -/
def firstWord (text : List Char) : List Char × List Char :=
  let text := trimStart text
  (text.takeWhile (!isBlank ·), text.dropWhile (!isBlank ·))

/-- What follows `lead` if the text starts with it, otherwise the whole text. -/
def dropLead (lead text : List Char) : List Char :=
  (lead.isPrefixOf? text).getD text

/-- What comes before `close` if the text ends with it, otherwise the whole text. -/
def dropEnd (close text : List Char) : List Char :=
  (close.isSuffixOf? text).getD text

/-- Pieces are not empty. -/
theorem ne_nil_of_mem_pieces {sep : Char} {text piece : List Char} (h : piece ∈ pieces sep text) :
    piece ≠ [] := by
  have := (List.mem_filter.mp h).2
  cases piece <;> simp_all

theorem isPrefixOf?_nil (text : List Char) : [].isPrefixOf? text = some text := by
  cases text <;> rfl

/-- A lead is compared with a text character by character. -/
theorem isPrefixOf?_cons_cons (c d : Char) (lead text : List Char) :
    (c :: lead).isPrefixOf? (d :: text) = if c == d then lead.isPrefixOf? text else none :=
  rfl

/-- A text behind a lead is what follows the lead. -/
theorem isPrefixOf?_append (lead rest : List Char) :
    lead.isPrefixOf? (lead ++ rest) = some rest := by
  induction lead with
  | nil => exact isPrefixOf?_nil rest
  | cons c lead ih => rw [List.cons_append, isPrefixOf?_cons_cons, if_pos (beq_self_eq_true c), ih]

/-- A text in front of an end is what comes before the end. -/
theorem isSuffixOf?_append (rest close : List Char) :
    close.isSuffixOf? (rest ++ close) = some rest := by
  show (close.reverse.isPrefixOf? (rest ++ close).reverse).map List.reverse = some rest
  rw [List.reverse_append, isPrefixOf?_append, Option.map_some, List.reverse_reverse]

/-- What follows a lead, together with the lead, is the whole text. -/
theorem append_of_isPrefixOf? {lead text rest : List Char}
    (h : lead.isPrefixOf? text = some rest) : lead ++ rest = text := by
  induction lead generalizing text with
  | nil =>
    rw [isPrefixOf?_nil] at h
    exact (Option.some.inj h).symm
  | cons c lead ih =>
    cases text with
    | nil => cases h
    | cons d text =>
      rw [isPrefixOf?_cons_cons] at h
      split at h
      · next heq => rw [List.cons_append, ih h, beq_iff_eq.mp heq]
      · cases h

/-- What comes before an end, together with the end, is the whole text. -/
theorem append_of_isSuffixOf? {close text rest : List Char}
    (h : close.isSuffixOf? text = some rest) : rest ++ close = text := by
  obtain ⟨found, hfound, rfl⟩ := Option.map_eq_some_iff.mp h
  have := congrArg List.reverse (append_of_isPrefixOf? hfound)
  simpa using this

end PhpTypes.Text
