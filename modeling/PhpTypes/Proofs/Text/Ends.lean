import PhpTypes.Proofs.Text.Pieces

/-!
# The ends of a trimmed text

A part of a text that neither starts nor ends with a blank is kept by trimming; only what follows it
is trimmed (`trim_append`). So what a trimmed text starts with is decided by its first part that is
not blank, and what it ends with by its last such part (`prefix_trim_append_cons`,
`suffix_trim_append_cons`). Trimming treats the two ends alike (`trim_reverse`), and the second fact
is the first one read backwards.
-/

namespace PhpTypes.Text

variable {s t lead close : List Char} {b : Char}

/-- Nothing is left of a text if and only if it is blank. -/
theorem trim_eq_nil_iff {text : List Char} : trim text = [] ↔ ∀ c ∈ text, isBlank c = true := by
  constructor
  · intro h
    obtain ⟨before, after, hbefore, hafter, htext⟩ := exists_append_trim_append text
    rw [h, List.append_nil] at htext
    rw [htext]
    exact List.forall_mem_append.mpr ⟨hbefore, hafter⟩
  · intro h
    have htrim := trim_append_append h (fun c hc => absurd hc List.not_mem_nil) []
    rwa [List.append_nil, List.append_nil] at htrim

/-- Blanks in front are trimmed off. -/
theorem trim_append_of_blank (h : ∀ c ∈ s, isBlank c = true) (t : List Char) :
    trim (s ++ t) = trim t := by
  have htrim := trim_append_append h (fun _ hc => absurd hc List.not_mem_nil) t
  rwa [List.append_nil] at htrim

/-- Blanks behind are trimmed off. -/
theorem trim_append_blank (h : ∀ c ∈ t, isBlank c = true) (s : List Char) :
    trim (s ++ t) = trim s :=
  trim_append_append (fun _ hc => absurd hc List.not_mem_nil) h s

/-- Trimming treats both ends alike. -/
theorem trim_reverse (text : List Char) : trim text.reverse = (trim text).reverse := by
  obtain ⟨before, after, hbefore, hafter, htext⟩ := exists_append_trim_append text
  have hflip : text.reverse = after.reverse ++ (trim text).reverse ++ before.reverse := by
    rw [htext, trim_append_append hbefore hafter, trim_trim]
    simp
  rw [hflip, trim_append_append (by simpa using hafter) (by simpa using hbefore)]
  refine trim_of_ends (fun c hc => ?_) (fun c hc => ?_)
  · rw [List.head?_reverse] at hc
    exact noBlankLast_trim text c hc
  · rw [List.getLast?_reverse] at hc
    exact noBlankFirst_trim text c hc

/-! ## A part that is kept -/

/-- What trimming the end leaves is a prefix of the text. -/
theorem trimEnd_prefix (text : List Char) : trimEnd text <+: text := by
  obtain ⟨after, -, htext⟩ := exists_trimEnd_append text
  exact ⟨after, htext.symm⟩

/-- What is left by trimming the end starts like the text. -/
theorem head?_trimEnd {text : List Char} {c : Char} (h : (trimEnd text).head? = some c) :
    text.head? = some c := by
  obtain ⟨after, htext⟩ := trimEnd_prefix text
  obtain ⟨rest, hrest⟩ := List.head?_eq_some_iff.mp h
  rw [← htext, hrest]
  rfl

/-- Behind a last character that is no blank, only what follows is trimmed. -/
theorem trimEnd_append (hlast : NoBlankLast s) (t : List Char) :
    trimEnd (s ++ t) = s ++ trimEnd t := by
  have hs : s.reverse.dropWhile isBlank = s.reverse :=
    trimStart_of_head? fun c hc => hlast c (by rwa [List.head?_reverse] at hc)
  rw [trimEnd, dropEndWhile, List.reverse_append, List.dropWhile_append, hs, trimEnd, dropEndWhile]
  split
  · next hnil =>
    rw [List.isEmpty_iff.mp hnil, List.reverse_reverse, List.reverse_nil, List.append_nil]
  · rw [List.reverse_append, List.reverse_reverse]

/-- A part that neither starts nor ends with a blank is kept, and what follows it is trimmed at its
end. -/
theorem trim_append (hne : s ≠ []) (hfirst : NoBlankFirst s) (hlast : NoBlankLast s)
    (t : List Char) : trim (s ++ t) = s ++ trimEnd t := by
  obtain ⟨c, rest, rfl⟩ := List.exists_cons_of_ne_nil hne
  rw [trim, trimEnd_append hlast]
  exact trimStart_of_head? fun d hd => hfirst d hd

/-! ## Leading and closing runs -/

section Runs

variable {p : Char → Bool} {text run rest : List Char}

/-- A text is cut in front of its first character without a property. -/
theorem takeWhile_and_dropWhile_eq_iff :
    text.takeWhile p = run ∧ text.dropWhile p = rest ↔
      text = run ++ rest ∧ (∀ c ∈ run, p c = true) ∧ ∀ c, rest.head? = some c → p c = false := by
  constructor
  · rintro ⟨rfl, rfl⟩
    refine ⟨List.takeWhile_append_dropWhile.symm, List.all_eq_true.mp List.all_takeWhile,
      fun c hc => ?_⟩
    have hnot := List.head?_dropWhile_not p text
    rw [hc] at hnot
    simpa using hnot
  · rintro ⟨rfl, hrun, hrest⟩
    have hstop : rest.takeWhile p = [] ∧ rest.dropWhile p = rest := by
      cases rest with
      | nil => exact ⟨rfl, rfl⟩
      | cons c rest =>
        have hc : ¬ p c = true := Bool.eq_false_iff.mp (hrest c rfl)
        exact ⟨List.takeWhile_cons_of_neg hc, List.dropWhile_cons_of_neg hc⟩
    rw [List.takeWhile_append_of_pos hrun, List.dropWhile_append_of_pos hrun, hstop.1, hstop.2,
      List.append_nil]
    exact ⟨rfl, rfl⟩

/-- The leading run is the one behind which the text ends or a character without the property
stands. -/
theorem takeWhile_eq_iff : text.takeWhile p = run ↔
    (∀ c ∈ run, p c = true) ∧
      ∃ rest, (∀ c, rest.head? = some c → p c = false) ∧ text = run ++ rest := by
  constructor
  · intro h
    obtain ⟨htext, hrun, hrest⟩ := takeWhile_and_dropWhile_eq_iff.mp ⟨h, rfl⟩
    exact ⟨hrun, _, hrest, htext⟩
  · rintro ⟨hrun, rest, hrest, htext⟩
    exact (takeWhile_and_dropWhile_eq_iff.mpr ⟨htext, hrun, hrest⟩).1

/-- What is left behind the leading run does not start with the property. -/
theorem dropWhile_eq_iff : text.dropWhile p = rest ↔
    (∀ c, rest.head? = some c → p c = false) ∧
      ∃ run, (∀ c ∈ run, p c = true) ∧ text = run ++ rest := by
  constructor
  · intro h
    obtain ⟨htext, hrun, hrest⟩ := takeWhile_and_dropWhile_eq_iff.mp ⟨rfl, h⟩
    exact ⟨hrest, _, hrun, htext⟩
  · rintro ⟨hrest, run, hrun, htext⟩
    exact (takeWhile_and_dropWhile_eq_iff.mpr ⟨htext, hrun, hrest⟩).2

/-- What is left in front of the closing run does not end with the property. -/
theorem dropEndWhile_eq_iff : dropEndWhile p text = rest ↔
    (∀ c, rest.getLast? = some c → p c = false) ∧
      ∃ run, (∀ c ∈ run, p c = true) ∧ text = rest ++ run := by
  rw [dropEndWhile, ← List.reverse_inj, List.reverse_reverse, dropWhile_eq_iff, List.head?_reverse]
  refine and_congr_right fun _ => ⟨?_, ?_⟩
  · rintro ⟨run, hrun, htext⟩
    refine ⟨run.reverse, by simpa using hrun, ?_⟩
    rw [← List.reverse_inj, htext, List.reverse_append, List.reverse_reverse]
  · rintro ⟨run, hrun, rfl⟩
    exact ⟨run.reverse, by simpa using hrun, List.reverse_append⟩

end Runs

/-! ## What a trimmed text starts and ends with -/

/-- A text without blanks that starts another one does not reach beyond a blank. -/
theorem prefix_append_iff (hlead : ∀ c ∈ lead, isBlank c = false)
    (ht : ∀ c, t.head? = some c → isBlank c = true) : lead <+: s ++ t ↔ lead <+: s := by
  refine ⟨fun h => ?_, fun h => h.trans (List.prefix_append s t)⟩
  rcases List.prefix_or_prefix_of_prefix h (List.prefix_append s t) with h' | ⟨tail, rfl⟩
  · exact h'
  · rw [List.prefix_append_right_inj] at h
    cases tail with
    | nil => exact ⟨[], by rw [List.append_nil, List.append_nil]⟩
    | cons c tail =>
      obtain ⟨after, rfl⟩ := h
      have hc := hlead c (List.mem_append_right s List.mem_cons_self)
      rw [ht c rfl] at hc
      cases hc

/-- What a trimmed text starts with is decided in front of a blank, unless all is blank there. -/
theorem prefix_trim_append_cons (hlead : ∀ c ∈ lead, isBlank c = false) (hb : isBlank b = true) :
    lead <+: trim (s ++ b :: t) ↔ lead <+: if trim s = [] then trim t else trim s := by
  split
  · next hs =>
    have hblank : ∀ c ∈ s ++ [b], isBlank c = true :=
      List.forall_mem_append.mpr ⟨trim_eq_nil_iff.mp hs, List.forall_mem_singleton.mpr hb⟩
    rw [← List.singleton_append, ← List.append_assoc, trim_append_of_blank hblank]
  · next hs =>
    obtain ⟨before, after, hbefore, hafter, htext⟩ := exists_append_trim_append s
    have hsplit : s ++ b :: t = before ++ (trim s ++ (after ++ b :: t)) := by
      rw [← List.append_assoc, ← List.append_assoc, ← htext]
    rw [hsplit, trim_append_of_blank hbefore,
      trim_append hs (noBlankFirst_trim s) (noBlankLast_trim s)]
    refine prefix_append_iff hlead fun c hc => ?_
    have hhead := head?_trimEnd hc
    cases after with
    | nil =>
      obtain rfl := Option.some.inj hhead
      exact hb
    | cons d after =>
      obtain rfl := Option.some.inj hhead
      exact hafter d List.mem_cons_self

/-- What a trimmed text ends with is decided behind a blank, unless all is blank there. -/
theorem suffix_trim_append_cons (hclose : ∀ c ∈ close, isBlank c = false) (hb : isBlank b = true) :
    close <:+ trim (s ++ b :: t) ↔ close <:+ if trim t = [] then trim s else trim t := by
  have hflip : (s ++ b :: t).reverse = t.reverse ++ b :: s.reverse := by simp
  rw [← List.reverse_prefix, ← List.reverse_prefix, ← trim_reverse, hflip,
    prefix_trim_append_cons (by simpa using hclose) hb, trim_reverse, trim_reverse]
  simp only [List.reverse_eq_nil_iff, apply_ite List.reverse]

end PhpTypes.Text
