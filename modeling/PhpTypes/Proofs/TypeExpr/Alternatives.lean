import PhpTypes.Proofs.Text.Pieces
import PhpTypes.TypeExpr.Alternatives

/-!
# Unions and their members

Splitting at bars undoes joining with bars, as long as every bar inside a member is enclosed in
brackets (`splitBars_join`). The notion behind it is `PassedOver`: at a certain depth of brackets,
the text is gone over without a cut, and behind it the depth is the same. It says so for whatever
follows, so texts can be put together and brackets put around them.

`Member` adds what a member needs in order to be an alternative as it stands. A union of such
members has exactly these alternatives (`splitAlternatives_join`).
-/

namespace PhpTypes.TypeExpr

/-! ## Going over a text -/

/-- Splitting at the given depth cuts nowhere inside the text and leaves it at the same depth. -/
def PassedOver (depth : Int) (text : List Char) : Prop :=
  ∀ rest, splitBars depth (text ++ rest) = (splitBars depth rest).modifyHead (text ++ ·)

/-- A character that neither is a bracket nor separates the members of a union. -/
def isPlain (c : Char) : Bool :=
  !isOpening c && !isClosing c && c != '|'

variable {depth : Int}

/-- The empty text holds nothing to cut at. -/
theorem PassedOver.nil : PassedOver depth [] := by
  intro rest
  simp only [List.nil_append]
  exact (congrFun List.modifyHead_id _).symm

/-- Texts that are passed over one by one are passed over together. -/
theorem PassedOver.append {s t : List Char} (hs : PassedOver depth s) (ht : PassedOver depth t) :
    PassedOver depth (s ++ t) := by
  intro rest
  rw [List.append_assoc, hs, ht, List.modifyHead_modifyHead]
  simp only [Function.comp_def, List.append_assoc]

/-- A character that is no bar outside brackets belongs to the first part. -/
theorem splitBars_cons {c : Char} (hc : c = '|' → depth ≠ 0) (rest : List Char) :
    splitBars depth (c :: rest) = (splitBars (depthAfter depth c) rest).modifyHead (c :: ·) := by
  rw [splitBars, if_neg]
  intro hbar
  rw [Bool.and_eq_true, beq_iff_eq, beq_iff_eq] at hbar
  exact hc hbar.1 hbar.2

/-- Every text has at least one part. -/
theorem splitBars_ne_nil (depth : Int) (text : List Char) : splitBars depth text ≠ [] := by
  induction text generalizing depth with
  | nil => exact List.cons_ne_nil _ _
  | cons c rest ih =>
    rw [splitBars]
    split
    · exact List.cons_ne_nil _ _
    · simpa using ih (depthAfter depth c)

/-- A bar outside all brackets separates what follows it. -/
theorem splitBars_bar (rest : List Char) :
    splitBars 0 ('|' :: rest) = [] :: splitBars 0 rest :=
  rfl

/-- A text without bars that could cut it is the only part. -/
theorem PassedOver.splitBars_eq {text : List Char} (h : PassedOver depth text) :
    splitBars depth text = [text] := by
  have hall := h []
  rwa [List.append_nil, splitBars, List.modifyHead_cons, List.append_nil] at hall

/-- A character that changes no depth is passed over, unless it is a bar outside brackets. -/
theorem PassedOver.singleton {c : Char} (hdepth : depthAfter depth c = depth)
    (hc : c = '|' → depth ≠ 0) : PassedOver depth [c] := by
  intro rest
  rw [List.singleton_append, splitBars_cons hc, hdepth]
  rfl

/-- Plain characters are passed over. -/
theorem PassedOver.of_isPlain {text : List Char} (h : ∀ c ∈ text, isPlain c = true) :
    PassedOver depth text := by
  induction text with
  | nil => exact .nil
  | cons c rest ih =>
    have hc := h c List.mem_cons_self
    simp only [isPlain, Bool.and_eq_true, Bool.not_eq_true', bne_iff_ne] at hc
    obtain ⟨⟨hopening, hclosing⟩, hbar⟩ := hc
    have hdepth : depthAfter depth c = depth := by simp [depthAfter, hopening, hclosing]
    rw [← List.singleton_append]
    refine (PassedOver.singleton hdepth fun heq => absurd heq hbar).append (ih fun d hd => ?_)
    exact h d (List.mem_cons_of_mem c hd)

/-- Brackets hide what is between them, one level further in. -/
theorem PassedOver.enclosed {opening closing : Char} {inner : List Char}
    (hopening : isOpening opening = true) (hclosing : isClosing closing = true)
    (h : PassedOver (depth + 1) inner) : PassedOver depth (opening :: inner ++ [closing]) := by
  have hin : depthAfter depth opening = depth + 1 := by rw [depthAfter, if_pos hopening]
  have hnot : isOpening closing = false := by
    simp only [isClosing, Bool.or_eq_true, beq_iff_eq] at hclosing
    rcases hclosing with ((rfl | rfl) | rfl) | rfl <;> decide
  have hout : depthAfter (depth + 1) closing = depth := by
    rw [depthAfter, if_neg (by simp [hnot]), if_pos hclosing, Int.add_sub_cancel]
  have hbarIn : opening ≠ '|' := by
    rintro rfl
    exact absurd hopening (by decide)
  have hbarOut : closing ≠ '|' := by
    rintro rfl
    exact absurd hclosing (by decide)
  intro rest
  rw [List.cons_append, List.cons_append, splitBars_cons (fun heq => absurd heq hbarIn), hin,
    List.append_assoc, h, List.singleton_append, splitBars_cons (fun heq => absurd heq hbarOut),
    hout, List.modifyHead_modifyHead, List.modifyHead_modifyHead]
  simp only [Function.comp_def, List.cons_append, List.append_assoc, List.nil_append]

/-- An empty pair of brackets. -/
theorem PassedOver.brackets : PassedOver depth ['[', ']'] := by
  have h : PassedOver depth ('[' :: [] ++ [']']) := .enclosed (by decide) (by decide) .nil
  exact h

/-! ## Members of a union -/

/-- Inside brackets, a union is gone over like its members. -/
theorem PassedOver.join (hdepth : depth ≠ 0) {parts : List (List Char)}
    (h : ∀ part ∈ parts, PassedOver depth part) : PassedOver depth (Text.join '|' parts) := by
  induction parts with
  | nil => exact .nil
  | cons part rest ih =>
    have hpart := h part List.mem_cons_self
    have hrest := ih fun other hother => h other (List.mem_cons_of_mem part hother)
    cases rest with
    | nil => rwa [Text.join_singleton]
    | cons next rest =>
      have hbar : PassedOver depth ['|'] := .singleton rfl fun _ => hdepth
      rw [Text.join_cons_cons, ← List.singleton_append]
      exact hpart.append (hbar.append hrest)

/-- **Splitting at bars undoes joining with bars**, whatever the members hold inside brackets. -/
theorem splitBars_join {parts : List (List Char)} (hne : parts ≠ [])
    (h : ∀ part ∈ parts, PassedOver 0 part) : splitBars 0 (Text.join '|' parts) = parts := by
  induction parts with
  | nil => exact absurd rfl hne
  | cons part rest ih =>
    have hpart := h part List.mem_cons_self
    cases rest with
    | nil => rw [Text.join_singleton, hpart.splitBars_eq]
    | cons next rest =>
      have hrest := ih (List.cons_ne_nil _ _) fun other hother =>
        h other (List.mem_cons_of_mem part hother)
      rw [Text.join_cons_cons, hpart, splitBars_bar, hrest, List.modifyHead_cons, List.append_nil]

/-! ## Plain members -/

/-- A text that is an alternative as it stands: nothing is cut, trimmed or taken apart. -/
structure Member (part : List Char) : Prop where
  passedOver : PassedOver 0 part
  first : ∃ c, part.head? = some c ∧ Text.isBlank c = false ∧ c ≠ '?' ∧ c ≠ '('
  last : ∃ c, part.getLast? = some c ∧ Text.isBlank c = false ∧ isTrailing c = false

/-- A word without special characters is a member. -/
theorem Member.of_word {part : List Char} (hne : part ≠ [])
    (h : ∀ c ∈ part, isPlain c = true ∧ Text.isBlank c = false ∧ isTrailing c = false ∧
      c ≠ '?' ∧ c ≠ '(') : Member part where
  passedOver := .of_isPlain fun c hc => (h c hc).1
  first := by
    obtain ⟨-, hblank, -, hends⟩ := h _ (List.head_mem hne)
    exact ⟨_, List.head?_eq_some_head hne, hblank, hends⟩
  last := by
    obtain ⟨-, hblank, htrailing, -⟩ := h _ (List.getLast_mem hne)
    exact ⟨_, List.getLast?_eq_some_getLast hne, hblank, htrailing⟩

/-- A member is not empty. -/
theorem Member.ne_nil {part : List Char} (h : Member part) : part ≠ [] := by
  obtain ⟨c, hc, -⟩ := h.first
  rintro rfl
  cases hc

/-- There are no blanks around a member. -/
theorem Member.trim_eq {part : List Char} (h : Member part) : Text.trim part = part := by
  obtain ⟨first, hfirst, hfirstBlank, -⟩ := h.first
  obtain ⟨last, hlast, hlastBlank, -⟩ := h.last
  refine Text.trim_of_ends (fun c hc => ?_) (fun c hc => ?_)
  · rwa [← Option.some.inj (hfirst.symm.trans hc)]
  · rwa [← Option.some.inj (hlast.symm.trans hc)]

/-- A group starts with a parenthesis. -/
theorem group?_of_head?_ne {text : List Char} (h : text.head? ≠ some '(') : group? text = none := by
  unfold group?
  split
  · exact absurd rfl h
  · rfl

/-- A text that starts with a parenthesis is a group if that parenthesis closes at the very end. -/
theorem group?_cons (rest : List Char) :
    group? ('(' :: rest) =
      if rest.getLast? == some ')' && isBalanced rest.dropLast then some rest.dropLast
      else none :=
  rfl

/-! ## Expanding a member -/

/-- A part that is blank has no alternatives. -/
theorem expand_of_blank {part : List Char} (h : Text.trim part = []) : expand part = [] := by
  rw [expand]
  split
  · rfl
  · next htrim => cases h.symm.trans htrim
  · next hne _ => exact absurd h hne

/-- A question mark adds `null` behind the alternatives of what it stands before. -/
theorem expand_of_mark {part inner : List Char} (h : Text.trim part = '?' :: inner) :
    expand part = expand inner ++ ["null".toList] := by
  rw [expand]
  split
  · next htrim => cases h.symm.trans htrim
  · next found htrim =>
    obtain rfl : inner = found := (List.cons.inj (h.symm.trans htrim)).2
    rfl
  · next hne => exact absurd h (hne inner)

/-- A group has the alternatives of its parts. -/
theorem expand_of_group {part inner : List Char} (h : group? (Text.trim part) = some inner) :
    expand part = (splitBars 0 inner).flatMap expand := by
  rw [expand]
  split
  · next htrim =>
    rw [htrim] at h
    cases h
  · next htrim =>
    rw [htrim] at h
    cases h
  · split
    · next found hfound =>
      obtain rfl : inner = found := Option.some.inj (h.symm.trans hfound)
      rw [List.flatMap_subtype (g := expand) (fun _ _ => rfl), List.unattach_attach]
    · next hnone => cases h.symm.trans hnone

/-- A part that is neither blank nor marked nor a group is an alternative as it stands, once
trimmed. -/
theorem expand_of_plain {part : List Char} (hne : Text.trim part ≠ [])
    (hmark : (Text.trim part).head? ≠ some '?') (hgroup : group? (Text.trim part) = none) :
    expand part = [Text.trim part] := by
  rw [expand]
  split
  · next htrim => exact absurd htrim hne
  · next htrim =>
    rw [htrim] at hmark
    exact absurd rfl hmark
  · rw [hgroup]

/-- A member is its own only alternative. -/
theorem Member.expand_eq {part : List Char} (h : Member part) : expand part = [part] := by
  obtain ⟨c, hc, -, hmark, hparen⟩ := h.first
  have hplain := @expand_of_plain part
  rw [h.trim_eq] at hplain
  exact hplain h.ne_nil (by simp [hc, hmark]) (group?_of_head?_ne (by simp [hc, hparen]))

/-! ## The alternatives of a union -/

/-- The alternatives of a union are its members. -/
theorem alternatives_join {parts : List (List Char)} (hne : parts ≠ [])
    (h : ∀ part ∈ parts, Member part) : alternatives (Text.join '|' parts) = parts := by
  rw [alternatives, splitBars_join hne fun part hpart => (h part hpart).passedOver]
  clear hne
  induction parts with
  | nil => rfl
  | cons part rest ih =>
    rw [List.flatMap_cons, (h part List.mem_cons_self).expand_eq,
      ih fun other hother => h other (List.mem_cons_of_mem part hother)]
    rfl

/-- **A union of members has just these alternatives.** -/
theorem splitAlternatives_join {parts : List (List Char)} (hne : parts ≠ [])
    (h : ∀ part ∈ parts, Member part) :
    splitAlternatives (.ofList (Text.join '|' parts)) = parts.map String.ofList := by
  obtain ⟨part, rest, rfl⟩ := List.exists_cons_of_ne_nil hne
  obtain ⟨first, hfirst, hfirstBlank, -⟩ := (h part List.mem_cons_self).first
  have hlastMem := List.getLast_mem hne
  obtain ⟨last, hlast, hlastBlank, hlastTrailing⟩ := (h _ hlastMem).last
  have hhead : (Text.join '|' (part :: rest)).head? = some first := by
    rw [Text.head?_join (h part List.mem_cons_self).ne_nil, hfirst]
  have hend : (Text.join '|' (part :: rest)).getLast? = some last :=
    Text.getLast?_join (List.getLast?_eq_some_getLast hne) hlast
  have htrim : Text.trim (Text.join '|' (part :: rest)) = Text.join '|' (part :: rest) := by
    refine Text.trim_of_ends (fun c hc => ?_) (fun c hc => ?_)
    · rwa [← Option.some.inj (hhead.symm.trans hc)]
    · rwa [← Option.some.inj (hend.symm.trans hc)]
  have hdrop : Text.dropEndWhile isTrailing (Text.join '|' (part :: rest)) =
      Text.join '|' (part :: rest) := by
    refine Text.dropEndWhile_of_getLast? fun c hc => ?_
    rwa [← Option.some.inj (hend.symm.trans hc)]
  rw [splitAlternatives, String.toList_ofList, htrim, hdrop, alternatives_join hne h]

end PhpTypes.TypeExpr
