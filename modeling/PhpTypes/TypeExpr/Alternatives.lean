import PhpTypes.Text.Blank
import PhpTypes.Text.Pieces

/-!
# Alternatives of a type text

The type part of a doc comment may be a union `int|string`, may be nullable `?Foo`, and may hold
groups `(int|bool)`. It is split into the alternatives that remain when these forms are taken
apart: a group is replaced by its members, and `?` adds the alternative `null`. Bars inside
brackets do not split, so `array[int|string]` stays one alternative.
-/

namespace PhpTypes.TypeExpr

/-- Whether a character opens a bracket. -/
def isOpening (c : Char) : Bool :=
  c == '<' || c == '(' || c == '[' || c == '\x7b'

/-- Whether a character closes a bracket. -/
def isClosing (c : Char) : Bool :=
  c == '>' || c == ')' || c == ']' || c == '\x7d'

/-- The bracket depth after a character; all kinds of brackets count together. -/
def depthAfter (depth : Int) (c : Char) : Int :=
  if isOpening c then depth + 1 else if isClosing c then depth - 1 else depth

/-- Cuts off the leading type: the text up to the first blank that is not inside brackets. -/
def cutType (depth : Int) : List Char → List Char × List Char
  | [] => ([], [])
  | c :: rest =>
    if Text.isBlank c && depth ≤ 0 then ([], c :: rest)
    else
      let (type, after) := cutType (depthAfter depth c) rest
      (c :: type, after)

/-- The leading type of a text and what follows it. -/
def firstType (text : List Char) : List Char × List Char :=
  cutType 0 text

/-- Splits at the bars that stand outside all brackets. -/
def splitBars (depth : Int) : List Char → List (List Char)
  | [] => [[]]
  | c :: rest =>
    if c == '|' && depth == 0 then [] :: splitBars depth rest
    else (splitBars (depthAfter depth c) rest).modifyHead (c :: ·)

/-- Whether brackets close in order, from the given depth down to zero and never below. -/
def closesFrom (depth : Int) : List Char → Bool
  | [] => depth == 0
  | c :: rest => decide (0 ≤ depthAfter depth c) && closesFrom (depthAfter depth c) rest

/-- Whether every bracket of the text closes inside the text. -/
def isBalanced (text : List Char) : Bool :=
  closesFrom 0 text

/-- What is inside the parentheses, if the whole text is one group. -/
def group? : List Char → Option (List Char)
  | '(' :: rest =>
    if rest.getLast? == some ')' && isBalanced rest.dropLast then some rest.dropLast else none
  | _ => none

/-- No part is longer than the text. -/
theorem length_le_of_mem_splitBars {depth : Int} {text part : List Char}
    (h : part ∈ splitBars depth text) : part.length ≤ text.length := by
  induction text generalizing depth part with
  | nil => simp_all [splitBars]
  | cons c rest ih =>
    rw [splitBars] at h
    split at h
    · rcases List.mem_cons.mp h with rfl | h
      · exact Nat.zero_le _
      · exact Nat.le_succ_of_le (ih h)
    · generalize hparts : splitBars (depthAfter depth c) rest = parts at h
      cases parts with
      | nil => cases h
      | cons first others =>
        rw [List.modifyHead_cons] at h
        rcases List.mem_cons.mp h with rfl | h
        · exact Nat.succ_le_succ (ih (by rw [hparts]; exact List.mem_cons_self))
        · exact Nat.le_succ_of_le (ih (by rw [hparts]; exact List.mem_cons_of_mem _ h))

/-- What is inside a group is shorter than the group. -/
theorem length_lt_of_group? {text inner : List Char} (h : group? text = some inner) :
    inner.length < text.length := by
  unfold group? at h
  split at h
  · split at h
    · obtain rfl := Option.some.inj h
      simp only [List.length_dropLast, List.length_cons]
      omega
    · cases h
  · cases h

/-- The alternatives of one member of a union. -/
def expand (part : List Char) : List (List Char) :=
  match _htrim : Text.trim part with
  | [] => []
  | '?' :: inner => expand inner ++ ["null".toList]
  | trimmed =>
    match _hgroup : group? trimmed with
    | some inner => (splitBars 0 inner).attach.flatMap fun ⟨member, _⟩ => expand member
    | none => [trimmed]
termination_by part.length
decreasing_by
  · have := Text.length_trim_le part
    simp only [_htrim, List.length_cons] at this
    omega
  · have h := Text.length_trim_le part
    rw [_htrim] at h
    have := length_lt_of_group? _hgroup
    have := length_le_of_mem_splitBars ‹_›
    omega

/-- The alternatives of a union. -/
def alternatives (text : List Char) : List (List Char) :=
  (splitBars 0 text).flatMap expand

/-- Whether a character is punctuation that may follow a type in running text. -/
def isTrailing (c : Char) : Bool :=
  c == '.' || c == ','

/-- The alternatives of the type text of a doc comment; full stops and commas behind it are
dropped. -/
def splitAlternatives (text : String) : List String :=
  (alternatives (Text.dropEndWhile isTrailing (Text.trim text.toList))).map String.ofList

end PhpTypes.TypeExpr
