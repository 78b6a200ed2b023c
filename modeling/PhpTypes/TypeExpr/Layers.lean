import PhpTypes.Text.Case
import PhpTypes.Text.Pieces
import PhpTypes.Text.Window

/-!
# Array layers of an annotation

An annotation may be wrapped in array layers, each in one of two forms: the element followed by
`[]`, or the element between `array[` and `]`. Layers are counted from the outside until the text
no longer ends in a bracket.

`peelTrimmed` says what this means, by recursion on the text. It copies the text for every layer,
which is too slow for annotations with thousands of them; `peel` narrows a window instead, and
`peel_eq` shows that nothing changes.
-/

namespace PhpTypes.TypeExpr

/-- What precedes the element in the second form of a layer, in any letter case. -/
def arrayOpening : List Char :=
  "array[".toList

/-- The element between `array[` and a closing bracket, for a text that ends in that bracket. -/
def bracketed? (text : List Char) : Option (List Char) :=
  if Text.sameFolded (text.take arrayOpening.length) arrayOpening then
    some (text.drop arrayOpening.length).dropLast
  else none

/-- The element under the outermost layer, for a text that ends in a closing bracket. -/
def unwrap? (text : List Char) : Option (List Char) :=
  match ['[', ']'].isSuffixOf? text with
  | some element => some element
  | none => bracketed? text

/-- Taking off a layer makes a text shorter. -/
theorem length_lt_of_unwrap? {text element : List Char} (hne : text ≠ [])
    (h : unwrap? text = some element) : element.length < text.length := by
  have hpos := List.length_pos_iff.mpr hne
  unfold unwrap? at h
  split at h
  · next found hfound =>
    obtain rfl : found = element := by simpa using h
    have hlen := congrArg List.length (Text.append_of_isSuffixOf? hfound)
    simp only [List.length_append, List.length_cons, List.length_nil] at hlen
    omega
  · unfold bracketed? at h
    split at h
    · obtain rfl : (text.drop arrayOpening.length).dropLast = element := by simpa using h
      simp only [List.length_dropLast, List.length_drop]
      omega
    · cases h

/-- The innermost element of a trimmed text and the number of layers around it. There is no
element if a closing bracket belongs to neither form; the layers outside it still count. -/
def peelTrimmed (text : List Char) : Option (List Char) × Nat :=
  if _hend : text.getLast? = some ']' then
    match _h : unwrap? text with
    | some element =>
      let (core, layers) := peelTrimmed (Text.trim element)
      (core, layers + 1)
    | none => (none, 0)
  else (some text, 0)
termination_by text.length
decreasing_by
  have hne : text ≠ [] := by
    rintro rfl
    cases ‹_ = some ']'›
  exact Nat.lt_of_le_of_lt (Text.length_trim_le _) (length_lt_of_unwrap? hne ‹_›)

/-- Under a layer, the trimmed element is peeled, and the layer counts on top. -/
theorem peelTrimmed_of_unwrap? {text element : List Char} (hend : text.getLast? = some ']')
    (h : unwrap? text = some element) :
    peelTrimmed text =
      ((peelTrimmed (Text.trim element)).1, (peelTrimmed (Text.trim element)).2 + 1) := by
  rw [peelTrimmed, dif_pos hend]
  split
  · next found hfound =>
    obtain rfl : found = element := Option.some.inj (hfound.symm.trans h)
    rfl
  · next hnone => simp [h] at hnone

/-- A closing bracket that belongs to neither form leaves no element. -/
theorem peelTrimmed_of_unwrap?_eq_none {text : List Char} (hend : text.getLast? = some ']')
    (h : unwrap? text = none) : peelTrimmed text = (none, 0) := by
  rw [peelTrimmed, dif_pos hend]
  split
  · next found hfound => simp [h] at hfound
  · rfl

/-- Without a closing bracket at its end, the text is its own innermost element. -/
theorem peelTrimmed_of_getLast?_ne {text : List Char} (hend : text.getLast? ≠ some ']') :
    peelTrimmed text = (some text, 0) := by
  rw [peelTrimmed, dif_neg hend]

/-! ## Narrowing a window -/

/-- The element under the outermost layer, for a window that ends in a closing bracket. -/
def unwrapWindow? (w : Text.Window) : Option Text.Window :=
  if (w.dropLast 1).last? = some '[' then some (w.dropLast 2)
  else if Text.sameFolded (w.firstChars arrayOpening.length) arrayOpening then
    some ((w.dropFirst arrayOpening.length).dropLast 1)
  else none

/-- A window is unwrapped like its text. -/
theorem map_unwrapWindow? {w : Text.Window} (h : w.last? = some ']') :
    (unwrapWindow? w).map Text.Window.toList = unwrap? w.toList := by
  rw [Text.Window.last?_eq] at h
  obtain ⟨before, hw⟩ := List.getLast?_eq_some_iff.mp h
  have hlen : w.length = before.length + 1 := by
    rw [← w.length_toList, hw, List.length_append, List.length_singleton]
  have hbefore : (w.dropLast 1).last? = before.getLast? := by
    rw [Text.Window.last?_eq, Text.Window.toList_dropLast_one, hw, List.dropLast_concat]
  unfold unwrapWindow? unwrap?
  rw [hbefore]
  -- The window looks for `[` in front of the last character, the list for both brackets at once.
  split
  · next hopen =>
    obtain ⟨element, rfl⟩ := List.getLast?_eq_some_iff.mp hopen
    rw [List.append_assoc, List.singleton_append] at hw
    rw [hw, Text.isSuffixOf?_append, Option.map_some, Text.Window.toList_dropLast, hw, hlen]
    simp
  · next hopen =>
    have hsuffix : ['[', ']'].isSuffixOf? w.toList = none := by
      refine Option.eq_none_iff_forall_ne_some.mpr fun element h => hopen ?_
      have happend := Text.append_of_isSuffixOf? h
      rw [hw, ← List.singleton_append, ← List.append_assoc] at happend
      exact List.getLast?_eq_some_iff.mpr ⟨element, (List.append_inj_left' happend rfl).symm⟩
    rw [hsuffix, Text.Window.firstChars_eq]
    dsimp only
    unfold bracketed?
    split
    · rw [Option.map_some, Text.Window.toList_dropLast_one, Text.Window.toList_dropFirst]
    · rfl

/-- Taking off a layer makes a window shorter. -/
theorem length_lt_of_unwrapWindow? {w element : Text.Window} (hend : w.last? = some ']')
    (h : unwrapWindow? w = some element) : element.length < w.length := by
  have hmap := map_unwrapWindow? hend
  rw [h, Option.map_some] at hmap
  have hpos := Text.Window.length_pos_of_last? hend
  have hne : w.toList ≠ [] := List.ne_nil_of_length_pos (by rwa [w.length_toList])
  simpa using length_lt_of_unwrap? hne hmap.symm

/-- The innermost element of a trimmed window, and the number of layers around it on top of those
counted before. -/
def peelWindow (layers : Nat) (w : Text.Window) : Option (List Char) × Nat :=
  if _hend : w.last? = some ']' then
    match _h : unwrapWindow? w with
    | some element => peelWindow (layers + 1) element.trim
    | none => (none, layers)
  else (some w.toList, layers)
termination_by w.length
decreasing_by
  refine Nat.lt_of_le_of_lt ?_ (length_lt_of_unwrapWindow? _hend _h)
  rw [← Text.Window.length_toList, ← element.length_toList, Text.Window.toList_trim]
  exact Text.length_trim_le _

/-- A window is peeled like its text. -/
theorem peelWindow_eq (layers : Nat) (w : Text.Window) :
    peelWindow layers w = ((peelTrimmed w.toList).1, layers + (peelTrimmed w.toList).2) := by
  fun_induction peelWindow layers w with
  | case1 layers w hend element h ih =>
    have hmap := map_unwrapWindow? hend
    rw [h, Option.map_some] at hmap
    rw [Text.Window.last?_eq] at hend
    rw [ih, Text.Window.toList_trim, peelTrimmed_of_unwrap? hend hmap.symm]
    simp only [Nat.add_assoc, Nat.add_comm 1]
  | case2 layers w hend h =>
    have hmap := map_unwrapWindow? hend
    rw [h, Option.map_none] at hmap
    rw [Text.Window.last?_eq] at hend
    rw [peelTrimmed_of_unwrap?_eq_none hend hmap.symm]
    rfl
  | case3 layers w hend =>
    rw [Text.Window.last?_eq] at hend
    rw [peelTrimmed_of_getLast?_ne hend]
    rfl

/-- The innermost element of an annotation, without outer blanks, and the number of array layers
around it. -/
def peel (text : List Char) : Option (List Char) × Nat :=
  peelWindow 0 (Text.Window.ofList text).trim

/-- Peeling an annotation is peeling the trimmed text layer by layer. -/
theorem peel_eq (text : List Char) : peel text = peelTrimmed (Text.trim text) := by
  simp [peel, peelWindow_eq]

end PhpTypes.TypeExpr
