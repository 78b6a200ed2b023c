import PhpTypes.Text.Blank

/-!
# Windows on a text

A window is a stretch of a text that can be narrowed from both ends. The text is kept twice:
forwards from the first character of the window, and backwards from its last one. Dropping a
character then takes one step at either end, while a list would have to be copied to lose its last
character.

`toList` is the stretch itself. Every operation comes with a lemma that says what it does to it, so
whoever works with windows can think of lists.
-/

namespace PhpTypes.Text

/-- A stretch of a text. -/
structure Window where
  /-- The text from the first character of the stretch on. -/
  ahead : List Char
  /-- The text from the last character of the stretch back. -/
  behind : List Char
  length : Nat
  fits : length ≤ ahead.length
  agrees : (behind.take length).reverse = ahead.take length

namespace Window

/-- The characters of the stretch. -/
def toList (w : Window) : List Char :=
  w.ahead.take w.length

/-- The window that shows a whole text. -/
def ofList (text : List Char) : Window where
  ahead := text
  behind := text.reverse
  length := text.length
  fits := Nat.le_refl _
  agrees := by rw [← List.length_reverse, List.take_length, List.length_reverse,
    List.reverse_reverse, List.take_length]

/-- The window on a whole text shows the text. -/
@[simp] theorem toList_ofList (text : List Char) : (ofList text).toList = text :=
  List.take_length

/-- The length of a window is that of its stretch. -/
@[simp] theorem length_toList (w : Window) : w.toList.length = w.length := by
  rw [toList, List.length_take, Nat.min_eq_left w.fits]

/-- The stretch can be read backwards from its last character. -/
theorem reverse_toList (w : Window) : w.toList.reverse = w.behind.take w.length := by
  rw [toList, ← w.agrees, List.reverse_reverse]

/-- The text behind the end of a stretch reaches back at least to its start. -/
theorem length_le_behind (w : Window) : w.length ≤ w.behind.length := by
  have h := congrArg List.length w.reverse_toList
  rw [List.length_reverse, length_toList, List.length_take] at h
  omega

/-! ## The two ends -/

/-- The first character of the stretch. -/
def first? (w : Window) : Option Char :=
  if w.length = 0 then none else w.ahead.head?

/-- The last character of the stretch. -/
def last? (w : Window) : Option Char :=
  if w.length = 0 then none else w.behind.head?

/-- The first `n` characters of the stretch. -/
def firstChars (w : Window) (n : Nat) : List Char :=
  w.ahead.take (min n w.length)

/-- The first character is that of the list. -/
theorem first?_eq (w : Window) : w.first? = w.toList.head? := by
  rw [first?, toList, List.head?_take]

/-- The last character is that of the list. -/
theorem last?_eq (w : Window) : w.last? = w.toList.getLast? := by
  rw [last?, ← List.head?_reverse, reverse_toList, List.head?_take]

/-- The first characters are those of the list. -/
theorem firstChars_eq (w : Window) (n : Nat) : w.firstChars n = w.toList.take n := by
  rw [firstChars, toList, List.take_take]

/-! ## Narrowing -/

/-- The stretch without its first `n` characters. -/
def dropFirst (w : Window) (n : Nat) : Window where
  ahead := w.ahead.drop n
  behind := w.behind
  length := w.length - n
  fits := by
    have := w.fits
    rw [List.length_drop]
    omega
  agrees := by
    have h := congrArg (List.drop n) w.agrees
    rw [List.drop_reverse, List.take_take, List.length_take, List.drop_take] at h
    rw [← h, Nat.min_eq_left w.length_le_behind, Nat.min_eq_left (Nat.sub_le _ _)]

/-- The stretch without its last `n` characters. -/
def dropLast (w : Window) (n : Nat) : Window where
  ahead := w.ahead
  behind := w.behind.drop n
  length := w.length - n
  fits := Nat.le_trans (Nat.sub_le _ _) w.fits
  agrees := by
    have h := congrArg (List.take (w.length - n)) w.agrees
    rw [List.take_reverse, List.length_take, Nat.min_eq_left w.length_le_behind, List.take_take,
      Nat.min_eq_left (Nat.sub_le _ _)] at h
    rw [← List.drop_take]
    by_cases hn : n ≤ w.length
    · rwa [Nat.sub_sub_self hn] at h
    · have hz : w.length - n = 0 := by omega
      rw [hz, List.take_zero, List.reverse_eq_nil_iff, List.drop_eq_nil_iff, List.length_take]
      omega

/-- Dropping at the start is dropping from the list. -/
@[simp] theorem toList_dropFirst (w : Window) (n : Nat) :
    (w.dropFirst n).toList = w.toList.drop n :=
  (List.drop_take ..).symm

/-- Dropping at the end keeps the first members of the list. -/
@[simp] theorem toList_dropLast (w : Window) (n : Nat) :
    (w.dropLast n).toList = w.toList.take (w.length - n) := by
  rw [toList, toList, List.take_take, dropLast, Nat.min_eq_left (Nat.sub_le _ _)]

/-- Dropping one character at the end is dropping the last member of the list. -/
theorem toList_dropLast_one (w : Window) : (w.dropLast 1).toList = w.toList.dropLast := by
  rw [toList_dropLast, List.dropLast_eq_take, length_toList]

/-- A stretch with a first character is not empty. -/
theorem length_pos_of_first? {w : Window} {c : Char} (h : w.first? = some c) : 0 < w.length := by
  unfold first? at h
  split at h
  · cases h
  · omega

/-- A stretch with a last character is not empty. -/
theorem length_pos_of_last? {w : Window} {c : Char} (h : w.last? = some c) : 0 < w.length := by
  unfold last? at h
  split at h
  · cases h
  · omega

/-! ## Trimming -/

/-- The stretch without the longest run at its start whose characters all satisfy `p`. -/
def dropFirstWhile (p : Char → Bool) (w : Window) : Window :=
  match _h : w.first? with
  | some c => if p c then dropFirstWhile p (w.dropFirst 1) else w
  | none => w
termination_by w.length
decreasing_by exact Nat.sub_one_lt_of_lt (length_pos_of_first? _h)

/-- The stretch without the longest run at its end whose characters all satisfy `p`. -/
def dropLastWhile (p : Char → Bool) (w : Window) : Window :=
  match _h : w.last? with
  | some c => if p c then dropLastWhile p (w.dropLast 1) else w
  | none => w
termination_by w.length
decreasing_by exact Nat.sub_one_lt_of_lt (length_pos_of_last? _h)

/-- The stretch without the blank characters at its two ends. -/
def trim (w : Window) : Window :=
  (w.dropLastWhile isBlank).dropFirstWhile isBlank

/-- A run is dropped at the start as from the list. -/
@[simp] theorem toList_dropFirstWhile (p : Char → Bool) (w : Window) :
    (w.dropFirstWhile p).toList = w.toList.dropWhile p := by
  fun_induction dropFirstWhile p w with
  | case1 w c h hp ih =>
    rw [first?_eq] at h
    rw [ih, toList_dropFirst]
    cases hw : w.toList with
    | nil => simp [hw] at h
    | cons d rest =>
      obtain rfl : d = c := by simpa [hw] using h
      simp [hp]
  | case2 w c h hp =>
    rw [first?_eq] at h
    cases hw : w.toList with
    | nil => simp [hw] at h
    | cons d rest =>
      obtain rfl : d = c := by simpa [hw] using h
      simp [hp]
  | case3 w h =>
    rw [first?_eq, List.head?_eq_none_iff] at h
    simp [h]

/-- A run is dropped at the end as from the list. -/
@[simp] theorem toList_dropLastWhile (p : Char → Bool) (w : Window) :
    (w.dropLastWhile p).toList = dropEndWhile p w.toList := by
  fun_induction dropLastWhile p w with
  | case1 w c h hp ih =>
    rw [last?_eq] at h
    obtain ⟨rest, hw⟩ := List.getLast?_eq_some_iff.mp h
    rw [ih, toList_dropLast_one, hw]
    simp [dropEndWhile, hp]
  | case2 w c h hp =>
    rw [last?_eq] at h
    obtain ⟨rest, hw⟩ := List.getLast?_eq_some_iff.mp h
    rw [hw]
    simp [dropEndWhile, hp]
  | case3 w h =>
    rw [last?_eq, List.getLast?_eq_none_iff] at h
    simp [h, dropEndWhile]

/-- A window is trimmed like the list of its characters. -/
@[simp] theorem toList_trim (w : Window) : w.trim.toList = Text.trim w.toList := by
  simp [trim, Text.trim, trimStart, trimEnd]

end Window

end PhpTypes.Text
