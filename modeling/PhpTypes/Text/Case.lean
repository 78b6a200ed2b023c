/-!
# Letter case

Names of the vocabulary and of classes are compared without regard to the case of the letters
`A` to `Z`; every other character counts as written.
-/

namespace PhpTypes.Text

/-- The text with the letters `A` to `Z` in lower case. -/
def foldCase (text : List Char) : List Char :=
  text.map Char.toLower

/-- Whether two texts agree up to the case of the letters `A` to `Z`. -/
def sameFolded (a b : List Char) : Bool :=
  foldCase a == foldCase b

/-- Lower case does not change the length of a text. -/
@[simp] theorem length_foldCase (text : List Char) : (foldCase text).length = text.length := by
  simp [foldCase]

/-- A concatenation is put in lower case part by part. -/
@[simp] theorem foldCase_append (a b : List Char) :
    foldCase (a ++ b) = foldCase a ++ foldCase b := by
  simp [foldCase]

/-- Texts are compared without regard to letter case by comparing them in lower case. -/
theorem sameFolded_iff {a b : List Char} : sameFolded a b = true ↔ foldCase a = foldCase b := by
  simp [sameFolded]

end PhpTypes.Text

namespace String

/-- The string with the letters `A` to `Z` in lower case. -/
def foldCase (s : String) : String :=
  .ofList (PhpTypes.Text.foldCase s.toList)

/-- Whether two strings agree up to the case of the letters `A` to `Z`. -/
def sameFolded (s t : String) : Bool :=
  s.foldCase == t.foldCase

/-- A string is put in lower case character by character. -/
@[simp] theorem toList_foldCase (s : String) :
    s.foldCase.toList = PhpTypes.Text.foldCase s.toList := by
  simp [foldCase]

end String
