import PhpTypes.Text.Case
import PhpTypes.Text.Pieces

/-!
# Operations on texts and letter case

Cutting and trimming a text look at characters that are no letters, or at classes of characters that
hold both cases of a letter or neither. So they may be done before or after all letters are put in
lower case (`trim_foldCase`, `splitOn_foldCase`), and texts that agree up to letter case are taken
apart in the same way.
-/

namespace PhpTypes.Text

/-! ## Optional values -/

/-- Optional values that agree under a function are both missing, or both there and agree. -/
theorem rel_of_map_eq {α β : Type} {f : α → β} {a? b? : Option α} (h : a?.map f = b?.map f) :
    Option.Rel (fun a b => f a = f b) a? b? := by
  cases a? with
  | none =>
    rw [Option.map_none, eq_comm, Option.map_eq_none_iff] at h
    rw [h]
    exact .none
  | some a =>
    rw [Option.map_some, eq_comm, Option.map_eq_some_iff] at h
    obtain ⟨b, rfl, hb⟩ := h
    exact .some hb.symm

/-! ## Characters -/

/-- Putting a character in lower case changes the letters `A` to `Z` alone. -/
theorem toLower_of_not_isUpper {c : Char} (h : c.isUpper = false) : c.toLower = c :=
  dif_neg (of_decide_eq_false h)

/-- What holds of the letters `A` to `Z` one by one holds of every letter in upper case. -/
theorem of_isUpper {P : Char → Prop} (h : ∀ n < 26, P (Char.ofNat (65 + n))) {c : Char}
    (hupper : c.isUpper = true) : P c := by
  have hrange : 65 ≤ c.toNat ∧ c.toNat ≤ 90 := of_decide_eq_true hupper
  have hc := h (c.toNat - 65) (by omega)
  rwa [Nat.add_sub_cancel' hrange.1, Char.ofNat_toNat] at hc

/-- What is the same for both cases of every letter does not change when a letter is put in lower
case. -/
theorem apply_toLower {α : Type} {p : Char → α}
    (h : ∀ n < 26, p (Char.ofNat (65 + n)).toLower = p (Char.ofNat (65 + n))) (c : Char) :
    p c.toLower = p c := by
  by_cases hupper : c.isUpper = true
  · exact of_isUpper (P := fun c => p c.toLower = p c) h hupper
  · rw [toLower_of_not_isUpper (by simpa using hupper)]

/-- No letter `A` to `Z` is left once a character is in lower case. -/
theorem isUpper_toLower (c : Char) : c.toLower.isUpper = false := by
  by_cases hupper : c.isUpper = true
  · exact of_isUpper (P := fun c => c.toLower.isUpper = false) (by decide) hupper
  · rw [toLower_of_not_isUpper (by simpa using hupper)]
    simpa using hupper

/-- A character in lower case stays as it is. -/
theorem toLower_toLower (c : Char) : c.toLower.toLower = c.toLower :=
  apply_toLower (by decide) c

/-- Blanks are no letters, so lower case neither adds nor removes one. -/
theorem isBlank_toLower (c : Char) : isBlank c.toLower = isBlank c :=
  apply_toLower (by decide) c

/-- No letter becomes a character that is none. -/
theorem toLower_eq_iff {sep : Char} (hsep : sep.isAlpha = false) {c : Char} :
    c.toLower = sep ↔ c = sep := by
  have hsame {d : Char} (hd : d.isAlpha = false) : d.toLower = d :=
    toLower_of_not_isUpper (Bool.or_eq_false_iff.mp hd).1
  constructor
  · rintro rfl
    have halpha : c.toLower.isAlpha = c.isAlpha := apply_toLower (by decide) c
    exact (hsame (halpha.symm.trans hsep)).symm
  · rintro rfl
    exact hsame hsep

/-! ## Texts -/

/-- Letter case is folded character by character. -/
theorem foldCase_cons (c : Char) (text : List Char) :
    foldCase (c :: text) = c.toLower :: foldCase text := rfl

/-- A text in lower case stays as it is. -/
@[simp] theorem foldCase_foldCase (text : List Char) :
    foldCase (foldCase text) = foldCase text := by
  rw [foldCase, foldCase, List.map_map]
  exact List.map_congr_left fun c _ => toLower_toLower c

/-- Lower case reads the same from either end. -/
theorem foldCase_reverse (text : List Char) : foldCase text.reverse = (foldCase text).reverse :=
  List.map_reverse

/-- The text behind the leading run of a class that holds both cases of a letter or neither is the
same up to letter case. -/
theorem dropWhile_foldCase {p : Char → Bool} (hp : ∀ c : Char, p c.toLower = p c)
    (text : List Char) : (foldCase text).dropWhile p = foldCase (text.dropWhile p) := by
  have hcomp : p ∘ Char.toLower = p := funext hp
  rw [foldCase, foldCase, List.dropWhile_map, hcomp]

/-- The leading run of a class that holds both cases of a letter or neither is the same up to letter
case. -/
theorem takeWhile_foldCase {p : Char → Bool} (hp : ∀ c : Char, p c.toLower = p c)
    (text : List Char) : (foldCase text).takeWhile p = foldCase (text.takeWhile p) := by
  have hcomp : p ∘ Char.toLower = p := funext hp
  rw [foldCase, foldCase, List.takeWhile_map, hcomp]

/-- The text in front of the closing run of a class that holds both cases of a letter or neither is
the same up to letter case. -/
theorem dropEndWhile_foldCase {p : Char → Bool} (hp : ∀ c : Char, p c.toLower = p c)
    (text : List Char) : dropEndWhile p (foldCase text) = foldCase (dropEndWhile p text) := by
  rw [dropEndWhile, dropEndWhile, ← foldCase_reverse, dropWhile_foldCase hp, foldCase_reverse]

/-- Trimming does not depend on letter case. -/
theorem trim_foldCase (text : List Char) : trim (foldCase text) = foldCase (trim text) := by
  rw [trim, trim, trimStart, trimStart, trimEnd, trimEnd, dropEndWhile_foldCase isBlank_toLower,
    dropWhile_foldCase isBlank_toLower]

/-- A text ends with a separator exactly if it does in lower case. -/
theorem getLast?_foldCase_eq_iff {sep : Char} (hsep : sep.isAlpha = false) {text : List Char} :
    (foldCase text).getLast? = some sep ↔ text.getLast? = some sep := by
  rw [foldCase, List.getLast?_map, Option.map_eq_some_iff]
  constructor
  · rintro ⟨c, hc, heq⟩
    rwa [← (toLower_eq_iff hsep).mp heq]
  · intro h
    exact ⟨sep, h, (toLower_eq_iff hsep).mpr rfl⟩

/-- A text starts with a separator exactly if it does in lower case. -/
theorem head?_foldCase_eq_iff {sep : Char} (hsep : sep.isAlpha = false) {text : List Char} :
    (foldCase text).head? = some sep ↔ text.head? = some sep := by
  rw [foldCase, List.head?_map, Option.map_eq_some_iff]
  constructor
  · rintro ⟨c, hc, heq⟩
    rwa [← (toLower_eq_iff hsep).mp heq]
  · intro h
    exact ⟨sep, h, (toLower_eq_iff hsep).mpr rfl⟩

/-! ## Pieces -/

/-- A text is split at a separator in the same places in lower case. -/
theorem splitOn_foldCase {sep : Char} (hsep : sep.isAlpha = false) (text : List Char) :
    (foldCase text).splitOn sep = (text.splitOn sep).map foldCase := by
  induction text with
  | nil => rfl
  | cons c rest ih =>
    rw [foldCase_cons, List.splitOn_cons_eq_if_modifyHead, List.splitOn_cons_eq_if_modifyHead, ih]
    by_cases hc : c = sep
    · have hlower : c.toLower = sep := (toLower_eq_iff hsep).mpr hc
      rw [if_pos (beq_iff_eq.mpr hlower), if_pos (beq_iff_eq.mpr hc)]
      rfl
    · have hlower : c.toLower ≠ sep := fun heq => hc ((toLower_eq_iff hsep).mp heq)
      rw [if_neg (by simpa using hlower), if_neg (by simpa using hc)]
      cases rest.splitOn sep <;> rfl

/-- The pieces of a text in lower case are its pieces in lower case. -/
theorem pieces_foldCase {sep : Char} (hsep : sep.isAlpha = false) (text : List Char) :
    pieces sep (foldCase text) = (pieces sep text).map foldCase := by
  rw [pieces, pieces, splitOn_foldCase hsep, List.filter_map]
  congr 1
  refine List.filter_congr fun piece _ => ?_
  cases piece <;> rfl

/-- Joining parts around a separator goes along with lower case. -/
theorem foldCase_intercalate (sep : List Char) (parts : List (List Char)) :
    foldCase (sep.intercalate parts) = (foldCase sep).intercalate (parts.map foldCase) := by
  induction parts with
  | nil => rfl
  | cons part rest ih =>
    cases rest with
    | nil => simp
    | cons next rest =>
      rw [List.intercalate_cons_cons, foldCase_append, foldCase_append, ih]
      exact List.intercalate_cons_cons.symm

/-! ## Known leads and ends -/

/-- A lead without letters is found in lower case, with the rest in lower case behind it. -/
theorem isPrefixOf?_foldCase {lead : List Char} (hlead : ∀ c ∈ lead, c.isAlpha = false)
    (text : List Char) :
    lead.isPrefixOf? (foldCase text) = (lead.isPrefixOf? text).map foldCase := by
  induction lead generalizing text with
  | nil => rw [isPrefixOf?_nil, isPrefixOf?_nil, Option.map_some]
  | cons c lead ih =>
    cases text with
    | nil => rfl
    | cons d text =>
      have hc := hlead c List.mem_cons_self
      rw [foldCase_cons, isPrefixOf?_cons_cons, isPrefixOf?_cons_cons]
      by_cases hd : d = c
      · have hlower : d.toLower = c := (toLower_eq_iff hc).mpr hd
        rw [hlower, hd, if_pos (beq_self_eq_true c), if_pos (beq_self_eq_true c)]
        exact ih (fun e he => hlead e (List.mem_cons_of_mem c he)) text
      · have hlower : d.toLower ≠ c := fun heq => hd ((toLower_eq_iff hc).mp heq)
        rw [if_neg (by simpa using hlower.symm), if_neg (by simpa using Ne.symm hd),
          Option.map_none]

/-- A closing part without letters is found in lower case, with the rest in lower case in front of
it. -/
theorem isSuffixOf?_foldCase {close : List Char} (hclose : ∀ c ∈ close, c.isAlpha = false)
    (text : List Char) :
    close.isSuffixOf? (foldCase text) = (close.isSuffixOf? text).map foldCase := by
  show (close.reverse.isPrefixOf? (foldCase text).reverse).map List.reverse =
    ((close.reverse.isPrefixOf? text.reverse).map List.reverse).map foldCase
  rw [← foldCase_reverse, isPrefixOf?_foldCase fun c hc => hclose c (List.mem_reverse.mp hc),
    Option.map_map, Option.map_map]
  congr 1
  exact funext fun found => (foldCase_reverse found).symm

/-- A lead without letters is dropped from a text in lower case exactly if it is dropped from the
text. -/
theorem dropLead_foldCase {lead : List Char} (hlead : ∀ c ∈ lead, c.isAlpha = false)
    (text : List Char) : dropLead lead (foldCase text) = foldCase (dropLead lead text) := by
  rw [dropLead, dropLead, isPrefixOf?_foldCase hlead]
  cases lead.isPrefixOf? text <;> rfl

end PhpTypes.Text

namespace String

/-- A string is put in lower case like the list of its characters. -/
theorem foldCase_ofList (text : List Char) :
    (ofList text).foldCase = ofList (PhpTypes.Text.foldCase text) := by
  rw [foldCase, toList_ofList]

/-- Strings agree up to letter case exactly if their characters do. -/
theorem foldCase_eq_iff {s t : String} : s.foldCase = t.foldCase ↔
    PhpTypes.Text.foldCase s.toList = PhpTypes.Text.foldCase t.toList := by
  rw [← toList_inj, toList_foldCase, toList_foldCase]

/-- A string in lower case stays as it is. -/
@[simp] theorem foldCase_foldCase (s : String) : s.foldCase.foldCase = s.foldCase := by
  rw [foldCase_eq_iff, toList_foldCase, PhpTypes.Text.foldCase_foldCase]

/-- A concatenation is put in lower case part by part. -/
theorem foldCase_append (s t : String) : (s ++ t).foldCase = s.foldCase ++ t.foldCase := by
  rw [← toList_inj]
  simp

/-- Only the empty string is empty in lower case. -/
theorem isEmpty_foldCase (s : String) : s.foldCase.isEmpty = s.isEmpty := by
  rw [Bool.eq_iff_iff, isEmpty_iff, isEmpty_iff, ← toList_inj, ← toList_inj, toList_foldCase]
  exact List.map_eq_nil_iff

/-- Joining strings around a separator without capitals goes along with lower case. -/
theorem foldCase_intercalate (sep : String) (hsep : sep.foldCase = sep) (parts : List String) :
    (sep.intercalate parts).foldCase = sep.intercalate (parts.map foldCase) := by
  have hchars : PhpTypes.Text.foldCase sep.toList = sep.toList := by rw [← toList_foldCase, hsep]
  rw [← toList_inj, toList_foldCase, toList_intercalate, toList_intercalate,
    PhpTypes.Text.foldCase_intercalate, hchars, List.map_map, List.map_map]
  simp [Function.comp_def]

end String
