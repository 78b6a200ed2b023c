import Mathlib.Data.List.Basic
import PhpTypes.Php.Preceding

/-!
# Doc comments in front of declarations

The search for the doc comment of a declaration goes back over trivia and looks at the text between
each two of them. What it finds can be said without the search: it is the last doc comment in front
of the declaration, if nothing but white space is left of the text between the two once blanks and
other comments are taken out (`precedingDoc_eq`).
-/

namespace PhpTypes.Php

/-! ## What is left of a text -/

/-- Whether the character at place `i` belongs to a blank or to a comment that is no doc comment. -/
def Trivia.hides (t : Trivia) (i : Nat) : Bool :=
  t.kind != .docComment && decide (t.start ≤ i) && decide (i < t.stop)

/-- The text from `start` up to `stop` without the blanks and the comments that are no doc
comments. -/
def remaining (text : Array Char) (trivia : List Trivia) (start stop : Nat) : List Char :=
  ((List.range' start (stop - start)).filter fun i => !trivia.any (Trivia.hides · i)).filterMap
    fun i => text[i]?

/-- The last doc comment that starts in front of a place. -/
def lastDoc? (trivia : List Trivia) (start : Nat) : Option Trivia :=
  (trivia.filter fun t => t.kind == .docComment && decide (t.start < start)).getLast?

/-- Trivia stand in order and do not overlap, and none of them reaches across the place `start`. -/
structure Trivia.Around (trivia : List Trivia) (start : Nat) : Prop where
  start_le_stop : ∀ t ∈ trivia, t.start ≤ t.stop
  ordered : trivia.Pairwise fun t u => t.stop ≤ u.start
  apart : ∀ t ∈ trivia, t.stop ≤ start ∨ start ≤ t.start

variable {text : Array Char} {trivia earlier : List Trivia} {t : Trivia} {start stop covered : Nat}

/-- Characters are hidden from the start of blanks and plain comments up to their end. -/
theorem Trivia.hides_iff {i : Nat} :
    t.hides i = true ↔ t.kind ≠ .docComment ∧ t.start ≤ i ∧ i < t.stop := by
  simp [hides, and_assoc]

/-- Trivia hide nothing behind their end. -/
theorem Trivia.hides_of_stop_le {i : Nat} (h : t.stop ≤ i) : t.hides i = false :=
  Bool.eq_false_iff.mpr fun hhides => absurd (hides_iff.mp hhides).2.2 (Nat.not_lt.mpr h)

/-- Trivia hide nothing in front of their start. -/
theorem Trivia.hides_of_lt_start {i : Nat} (h : i < t.start) : t.hides i = false :=
  Bool.eq_false_iff.mpr fun hhides => absurd (hides_iff.mp hhides).2.1 (Nat.not_le.mpr h)

/-- Only white space is left if every character that is not hidden is white space. -/
theorem all_remaining_iff : (remaining text trivia start stop).all Lexer.isSpace = true ↔
    ∀ i, start ≤ i → i < stop → (∀ t ∈ trivia, t.hides i = false) →
      ∀ c, text[i]? = some c → Lexer.isSpace c = true := by
  have hplace (i : Nat) : i ∈ (List.range' start (stop - start)).filter
      (fun i => !trivia.any (Trivia.hides · i)) ↔
      (start ≤ i ∧ i < stop) ∧ ∀ t ∈ trivia, t.hides i = false := by
    rw [List.mem_filter, List.mem_range'_1, Bool.not_eq_true', List.any_eq_false]
    simp only [Bool.not_eq_true]
    exact and_congr_left fun _ => by omega
  rw [List.all_eq_true]
  constructor
  · intro h i hstart hstop hseen c hc
    exact h c (List.mem_filterMap.mpr ⟨i, (hplace i).mpr ⟨⟨hstart, hstop⟩, hseen⟩, hc⟩)
  · intro h c hmem
    obtain ⟨i, hi, hc⟩ := List.mem_filterMap.mp hmem
    obtain ⟨⟨hstart, hstop⟩, hseen⟩ := (hplace i).mp hi
    exact h i hstart hstop hseen c hc

/-- A gap holds white space only. -/
theorem isGap_iff : isGap text start stop = true ↔
    ∀ i, start ≤ i → i < stop → ∀ c, text[i]? = some c → Lexer.isSpace c = true := by
  rw [isGap, Array.all_eq_true']
  constructor
  · intro h i hstart hstop c hc
    obtain ⟨hi, rfl⟩ := Array.getElem?_eq_some_iff.mp hc
    refine h _ (Array.mem_extract_iff_getElem.mpr ⟨i - start, by omega, ?_⟩)
    simp only [Nat.add_sub_cancel' hstart]
  · intro h c hmem
    obtain ⟨k, hk, rfl⟩ := Array.mem_extract_iff_getElem.mp hmem
    exact h (start + k) (by omega) (by omega) _ (Array.getElem?_eq_getElem _)

/-! ## The search -/

/-- A doc comment with a gap behind it is found. -/
theorem searchBack_cons_of_doc (hgap : isGap text t.stop covered = true)
    (hkind : t.kind = .docComment) : searchBack text (t :: earlier) covered = some t := by
  rw [searchBack, if_pos hgap, hkind]

/-- Behind any other trivia with a gap, the search goes on in front of them. -/
theorem searchBack_cons_of_other (hgap : isGap text t.stop covered = true)
    (hkind : t.kind ≠ .docComment) :
    searchBack text (t :: earlier) covered = searchBack text earlier t.start := by
  rw [searchBack, if_pos hgap]
  split
  · next hdoc => exact absurd hdoc hkind
  · rfl
  · rfl

/-- The search ends at other text. -/
theorem searchBack_cons_of_not_gap (hgap : ¬ isGap text t.stop covered = true) :
    searchBack text (t :: earlier) covered = none := by
  rw [searchBack, if_neg hgap]

/-- Behind all trivia nothing is hidden, so what is left up to there includes what follows them. -/
theorem isGap_of_all_remaining {ts : List Trivia} {first : Nat} (hstop : ∀ t ∈ ts, t.stop ≤ stop)
    (hfirst : first ≤ stop) (h : (remaining text ts first covered).all Lexer.isSpace = true) :
    isGap text stop covered = true := by
  refine isGap_iff.mpr fun i hstart hcovered => ?_
  exact all_remaining_iff.mp h i (by omega) hcovered fun t ht =>
    Trivia.hides_of_stop_le (Nat.le_trans (hstop t ht) hstart)

/-- A comment with white space behind it does not count. -/
theorem all_remaining_cons (hkind : t.kind ≠ .docComment) (hgap : isGap text t.stop covered = true)
    (hle : t.start ≤ covered) (start : Nat) :
    (remaining text (t :: earlier) start covered).all Lexer.isSpace = true ↔
      (remaining text earlier start t.start).all Lexer.isSpace = true := by
  rw [all_remaining_iff, all_remaining_iff]
  constructor
  · intro h i hstart hstop hseen
    refine h i hstart (by omega) (List.forall_mem_cons.mpr ⟨?_, hseen⟩)
    exact Trivia.hides_of_lt_start hstop
  · intro h i hstart hstop hseen
    obtain ⟨ht, hearlier⟩ := List.forall_mem_cons.mp hseen
    by_cases hbefore : i < t.start
    · exact h i hstart hbefore hearlier
    · have hafter : t.stop ≤ i := by
        by_contra hlt
        have hhides := Trivia.hides_iff.mpr ⟨hkind, Nat.not_lt.mp hbefore, Nat.not_le.mp hlt⟩
        rw [hhides] at ht
        cases ht
      exact isGap_iff.mp hgap i hafter hstop

/-- What the search finds among trivia that end at a place, the last ones first. -/
theorem searchBack_eq_some_iff {ts : List Trivia} {doc : Trivia}
    (hordered : ts.Pairwise fun t u => u.stop ≤ t.start) (hle : ∀ t ∈ ts, t.start ≤ t.stop)
    (hcovered : ∀ t ∈ ts, t.stop ≤ covered) :
    searchBack text ts covered = some doc ↔ ts.find? (·.kind == .docComment) = some doc ∧
      (remaining text ts doc.stop covered).all Lexer.isSpace = true := by
  induction ts generalizing covered with
  | nil => simp [searchBack]
  | cons t earlier ih =>
    obtain ⟨htlast, hordered⟩ := List.pairwise_cons.mp hordered
    obtain ⟨htle, hle⟩ := List.forall_mem_cons.mp hle
    obtain ⟨htcovered, -⟩ := List.forall_mem_cons.mp hcovered
    have hstop : ∀ u ∈ t :: earlier, u.stop ≤ t.stop :=
      List.forall_mem_cons.mpr ⟨Nat.le_refl _, fun u hu => Nat.le_trans (htlast u hu) htle⟩
    by_cases hgap : isGap text t.stop covered = true
    · by_cases hkind : t.kind = .docComment
      · have hfound : (t :: earlier).find? (·.kind == .docComment) = some t :=
          List.find?_cons_of_pos (by simp [hkind])
        rw [searchBack_cons_of_doc hgap hkind, hfound]
        refine (and_iff_left_of_imp fun hdoc => ?_).symm
        obtain rfl := Option.some.inj hdoc
        exact all_remaining_iff.mpr fun i hstart hstop _ => isGap_iff.mp hgap i hstart hstop
      · rw [searchBack_cons_of_other hgap hkind, ih hordered hle htlast,
          List.find?_cons_of_neg (by simp [hkind]),
          all_remaining_cons hkind hgap (Nat.le_trans htle htcovered)]
    · rw [searchBack_cons_of_not_gap hgap]
      refine iff_of_false nofun fun ⟨hfound, hall⟩ => hgap ?_
      exact isGap_of_all_remaining hstop (hstop doc (List.mem_of_find?_eq_some hfound)) hall

/-! ## The trivia in front of a place -/

/-- If a property goes over from later members of a list to earlier ones, the members that have it
are the first ones. -/
theorem takeWhile_eq_filter {α : Type} {p : α → Bool} {l : List α}
    (h : l.Pairwise fun a b => p b = true → p a = true) : l.takeWhile p = l.filter p := by
  induction l with
  | nil => rfl
  | cons a rest ih =>
    obtain ⟨ha, hrest⟩ := List.pairwise_cons.mp h
    by_cases hp : p a = true
    · rw [List.takeWhile_cons_of_pos hp, List.filter_cons_of_pos hp, ih hrest]
    · rw [List.takeWhile_cons_of_neg hp, List.filter_cons_of_neg hp, eq_comm,
        List.filter_eq_nil_iff]
      exact fun b hb hpb => hp (ha b hb hpb)

namespace Trivia.Around

/-- The trivia in front of the place, the last ones first. -/
theorem reverse_takeWhile (h : Around trivia start) :
    (trivia.takeWhile (·.start < start)).reverse = trivia.reverse.filter (·.start < start) := by
  have hfirst : trivia.Pairwise fun t u => decide (u.start < start) = true →
      decide (t.start < start) = true := by
    refine h.ordered.imp_of_mem fun {t u} ht _ hle hu => ?_
    have hstart := h.start_le_stop t ht
    rw [decide_eq_true_eq] at hu ⊢
    omega
  rw [takeWhile_eq_filter hfirst, List.filter_reverse]

/-- The others hide nothing in front of the place. -/
theorem forall_hides_filter_iff {i : Nat} (hi : i < start) :
    (∀ t ∈ trivia.reverse.filter (·.start < start), t.hides i = false) ↔
      ∀ t ∈ trivia, t.hides i = false := by
  simp only [List.mem_filter, List.mem_reverse, decide_eq_true_eq]
  refine ⟨fun h t ht => ?_, fun h t ht => h t ht.1⟩
  by_cases hstart : t.start < start
  · exact h t ⟨ht, hstart⟩
  · exact Trivia.hides_of_lt_start (by omega)

end Trivia.Around

/-- What is found in front of a place. -/
theorem precedingDoc_eq_some_iff (h : Trivia.Around trivia start) {doc : Trivia} :
    precedingDoc text trivia start = some doc ↔ lastDoc? trivia start = some doc ∧
      (remaining text trivia doc.stop start).all Lexer.isSpace = true := by
  have hbefore : ∀ t ∈ trivia.reverse.filter (·.start < start), t ∈ trivia ∧ t.start < start :=
    fun t ht => by simpa using ht
  have hordered : (trivia.reverse.filter (·.start < start)).Pairwise fun t u => u.stop ≤ t.start :=
    (List.pairwise_reverse.mpr h.ordered).filter _
  have hstops : ∀ t ∈ trivia.reverse.filter (·.start < start), t.stop ≤ start := by
    intro t ht
    obtain ⟨hmem, hstart⟩ := hbefore t ht
    exact (h.apart t hmem).resolve_right (by omega)
  have hlast : (trivia.reverse.filter (·.start < start)).find? (·.kind == .docComment) =
      lastDoc? trivia start := by
    rw [lastDoc?, List.getLast?_filter, List.find?_filter]
    simp only [Bool.and_comm, Bool.decide_and, Bool.decide_eq_true]
  rw [precedingDoc, h.reverse_takeWhile, ← hlast, searchBack_eq_some_iff hordered
    (fun t ht => h.start_le_stop t (hbefore t ht).1) hstops]
  refine and_congr_right fun _ => ?_
  rw [all_remaining_iff, all_remaining_iff]
  refine forall_congr' fun i => forall_congr' fun _ => forall_congr' fun hi => ?_
  rw [Trivia.Around.forall_hides_filter_iff hi]

/-- **The doc comment of a declaration is the last one in front of it, if nothing but white space
is left of the text between the two.** Otherwise it has none. -/
theorem precedingDoc_eq (h : Trivia.Around trivia start) (text : Array Char) :
    precedingDoc text trivia start = (lastDoc? trivia start).filter fun doc =>
      (remaining text trivia doc.stop start).all Lexer.isSpace := by
  ext doc
  rw [Option.filter_eq_some_iff, precedingDoc_eq_some_iff h]

/-- A call with a doc comment in front of it, and a call behind that one with a comment between. -/
theorem precedingDoc_eq_of_two_calls :
    let text := "/** a */ f(); // b\ng();".toList.toArray
    let doc : Trivia := ⟨.docComment, "/** a */", 0, 8⟩
    let trivia := [doc, ⟨.blank, " ", 8, 9⟩, ⟨.blank, " ", 13, 14⟩, ⟨.comment, "// b", 14, 18⟩,
      ⟨.blank, "\n", 18, 19⟩]
    Trivia.Around trivia 9 ∧ Trivia.Around trivia 19 ∧
      precedingDoc text trivia 9 = some doc ∧ precedingDoc text trivia 19 = none := by
  intro text doc trivia
  have hfirst : Trivia.Around trivia 9 := ⟨by decide, by decide, by decide⟩
  have hsecond : Trivia.Around trivia 19 := ⟨by decide, by decide, by decide⟩
  refine ⟨hfirst, hsecond, ?_, ?_⟩
  · rw [precedingDoc_eq hfirst]
    decide +kernel
  · rw [precedingDoc_eq hsecond]
    decide +kernel

end PhpTypes.Php
