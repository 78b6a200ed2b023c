import PhpTypes.Proofs.Text.Case
import PhpTypes.Proofs.Text.Pieces
import PhpTypes.Proofs.TypeExpr.Grammar

/-!
# Spellings of array layers

An array layer is written as `T[]` or as `array[T]`, with blanks around every part, so an annotation
in `n` layers has many spellings. `Layered` says which texts they are. They all mean the same:
peeling gives the core back, and reading applies `Registry.arrayOf` to it `n` times
(`Layered.resolve_eq_iterate`).

Which form a layer has is decided by the end of the text alone. The closing bracket of `array[T]`
could be taken for half of an empty pair if `T` ended in an opening bracket, but no layered text
does.
-/

namespace PhpTypes.TypeExpr

variable {core text : List Char} {n : Nat}

/-- The text is the core in so many array layers, with blanks around it and between the layers. -/
inductive Layered (core : List Char) : Nat → List Char → Prop
  | core : Layered core 0 core
  | padded {n : Nat} {before text after : List Char} (h : Layered core n text)
      (hbefore : ∀ c ∈ before, Text.isBlank c = true)
      (hafter : ∀ c ∈ after, Text.isBlank c = true) : Layered core n (before ++ text ++ after)
  | brackets {n : Nat} {text : List Char} (h : Layered core n text) :
      Layered core (n + 1) (text ++ ['[', ']'])
  | wrapped {n : Nat} {opening text : List Char} (h : Layered core n text)
      (hopening : Text.foldCase opening = "array[".toList) :
      Layered core (n + 1) (opening ++ text ++ [']'])

/-! ## Ends of layered texts -/

theorem isBlank_ne_bracket {c : Char} (h : Text.isBlank c = true) : c ≠ '[' := by
  rintro rfl
  exact absurd h (by decide)

/-- A layered text ends in another character than an opening bracket. -/
theorem Layered.exists_getLast? (h : Layered core n text) (hne : Text.trim core ≠ [])
    (hopen : (Text.trim core).getLast? ≠ some '[') : ∃ c, text.getLast? = some c ∧ c ≠ '[' := by
  induction h with
  | core =>
    have hsome : core ≠ [] := by
      rintro rfl
      exact hne rfl
    refine ⟨core.getLast hsome, List.getLast?_eq_some_getLast hsome, fun heq => hopen ?_⟩
    refine Text.getLast?_trim_of_not_blank ?_ (by decide)
    rw [List.getLast?_eq_some_getLast hsome, heq]
  | @padded n before text after _ _ hafter ih =>
    obtain ⟨c, hc, hbracket⟩ := ih
    cases hlast : after.getLast? with
    | none =>
      refine ⟨c, ?_, hbracket⟩
      rw [List.getLast?_append, hlast, List.getLast?_append, hc]
      rfl
    | some d =>
      refine ⟨d, ?_, isBlank_ne_bracket (hafter d (List.mem_of_getLast? hlast))⟩
      rw [List.getLast?_append, hlast]
      rfl
  | brackets => exact ⟨']', by rw [List.getLast?_append]; rfl, by decide⟩
  | wrapped => exact ⟨']', List.getLast?_concat, by decide⟩

/-- The closing bracket of `array[T]` is no half of an empty pair. -/
theorem not_endsInBrackets {opening : List Char} {c : Char} (h : text.getLast? = some c)
    (hbracket : c ≠ '[') : ¬ EndsInBrackets (opening ++ text ++ [']']) := by
  rintro ⟨element, helement⟩
  have happend : element ++ ['['] ++ [']'] = opening ++ text ++ [']'] := by
    rw [List.append_assoc]
    exact helement
  have hlast := congrArg List.getLast? (List.append_cancel_right happend)
  rw [List.getLast?_concat, List.getLast?_append, h, Option.some_or] at hlast
  exact hbracket (Option.some.inj hlast).symm

/-- The opening of `array[T]` starts with a letter. -/
theorem isBlank_of_head?_opening {opening rest : List Char}
    (hopening : Text.foldCase opening = "array[".toList) {c : Char}
    (hc : (opening ++ rest).head? = some c) : Text.isBlank c = false := by
  cases opening with
  | nil => exact absurd hopening (by decide)
  | cons d opening =>
    obtain rfl : d = c := Option.some.inj hc
    have hlower : d.toLower = 'a' := (List.cons.inj hopening).1
    rw [← Text.isBlank_toLower, hlower]
    decide

/-! ## Peeling -/

/-- Brackets behind a text are peeled off together with the blanks in front of them. -/
theorem peelTrimmed_brackets (text : List Char) :
    peelTrimmed (Text.trim (text ++ ['[', ']'])) =
      ((peelTrimmed (Text.trim text)).1, (peelTrimmed (Text.trim text)).2 + 1) := by
  have htrim : Text.trim (text ++ ['[', ']']) = Text.trimStart text ++ ['[', ']'] := by
    refine Text.trim_append_of_ends text (List.cons_ne_nil _ _) ?_ ?_
    · rintro c ⟨⟩
      decide
    · rintro c ⟨⟩
      decide
  have hend : (Text.trimStart text ++ ['[', ']']).getLast? = some ']' := by
    rw [List.getLast?_append]
    rfl
  rw [htrim, peelTrimmed_of_unwrap? hend (unwrap?_of_endsInBrackets _), Text.trim_trimStart]

/-- A wrapper is peeled off, whatever the case of its letters. -/
theorem peelTrimmed_wrapped {opening : List Char}
    (hopening : Text.foldCase opening = "array[".toList) {c : Char} (h : text.getLast? = some c)
    (hbracket : c ≠ '[') :
    peelTrimmed (Text.trim (opening ++ text ++ [']'])) =
      ((peelTrimmed (Text.trim text)).1, (peelTrimmed (Text.trim text)).2 + 1) := by
  have hend : (opening ++ text ++ [']']).getLast? = some ']' := List.getLast?_concat
  have htrim : Text.trim (opening ++ text ++ [']']) = opening ++ text ++ [']'] := by
    refine Text.trim_of_ends (fun d hd => ?_) fun d hd => ?_
    · rw [List.append_assoc] at hd
      exact isBlank_of_head?_opening hopening hd
    · rw [← Option.some.inj (hend.symm.trans hd)]
      decide
  have hunwrap : unwrap? (opening ++ text ++ [']']) = some text := by
    rw [unwrap?_of_not_endsInBrackets (not_endsInBrackets h hbracket),
      bracketed?_of_opening hopening]
  rw [htrim, peelTrimmed_of_unwrap? hend hunwrap]

/-- Peeling a layered text gives its core back and counts its layers. -/
theorem Layered.peelTrimmed_eq (h : Layered core n text) (hne : Text.trim core ≠ [])
    (hopen : (Text.trim core).getLast? ≠ some '[')
    (hclose : (Text.trim core).getLast? ≠ some ']') :
    peelTrimmed (Text.trim text) = (some (Text.trim core), n) := by
  induction h with
  | core => exact peelTrimmed_of_getLast?_ne hclose
  | padded _ hbefore hafter ih => rw [Text.trim_append_append hbefore hafter, ih]
  | brackets _ ih => rw [peelTrimmed_brackets, ih]
  | wrapped htext hopening ih =>
    obtain ⟨c, hc, hbracket⟩ := htext.exists_getLast? hne hopen
    rw [peelTrimmed_wrapped hopening hc hbracket, ih]

/-! ## Reading -/

variable {scope : Option Scope} {fullyQualified : Bool} {r : Registry}

/-- Blanks around an annotation do not matter. -/
theorem resolve_padded {before after : List Char} (hbefore : ∀ c ∈ before, Text.isBlank c = true)
    (hafter : ∀ c ∈ after, Text.isBlank c = true) :
    resolve scope fullyQualified (.ofList (before ++ text ++ after)) r =
      resolve scope fullyQualified (.ofList text) r := by
  rw [resolve, resolve, String.toList_ofList, String.toList_ofList, peel_eq, peel_eq,
    Text.trim_append_append hbefore hafter]

/-- An annotation that is peeled to another one in one step stands for its arrays. -/
theorem resolve_of_peelTrimmed_eq {element : List Char}
    (h : peelTrimmed (Text.trim text) =
      ((peelTrimmed (Text.trim element)).1, (peelTrimmed (Text.trim element)).2 + 1)) :
    resolve scope fullyQualified (.ofList text) r =
      (resolve scope fullyQualified (.ofList element) r).2.arrayOf
        (resolve scope fullyQualified (.ofList element) r).1 := by
  rw [resolve, resolve, String.toList_ofList, String.toList_ofList, peel_eq, peel_eq, h]
  exact wrap_succ _ _

/-- Brackets behind an annotation stand for arrays of what it means. -/
theorem resolve_brackets (text : List Char) :
    resolve scope fullyQualified (.ofList (text ++ ['[', ']'])) r =
      (resolve scope fullyQualified (.ofList text) r).2.arrayOf
        (resolve scope fullyQualified (.ofList text) r).1 :=
  resolve_of_peelTrimmed_eq (peelTrimmed_brackets text)

/-- So does a wrapper around an annotation. -/
theorem resolve_wrapped {opening : List Char} (hopening : Text.foldCase opening = "array[".toList)
    {c : Char} (h : text.getLast? = some c) (hbracket : c ≠ '[') :
    resolve scope fullyQualified (.ofList (opening ++ text ++ [']'])) r =
      (resolve scope fullyQualified (.ofList text) r).2.arrayOf
        (resolve scope fullyQualified (.ofList text) r).1 :=
  resolve_of_peelTrimmed_eq (peelTrimmed_wrapped hopening h hbracket)

/-- **Both forms of a layer mean the same, in any mixture.** All spellings of a core in `n` layers
are peeled to the core and read as the arrays of arrays, `n` deep, of what the core is read as. -/
theorem Layered.resolve_eq_iterate (h : Layered core n text) (hne : Text.trim core ≠ [])
    (hopen : (Text.trim core).getLast? ≠ some '[')
    (hclose : (Text.trim core).getLast? ≠ some ']') :
    peel text = (some (Text.trim core), n) ∧
      ∀ scope fullyQualified r, resolve scope fullyQualified (.ofList text) r =
        (fun answer => answer.2.arrayOf answer.1)^[n]
          (resolve scope fullyQualified (.ofList core) r) := by
  refine ⟨(peel_eq text).trans (h.peelTrimmed_eq hne hopen hclose), fun scope fullyQualified r => ?_⟩
  induction h with
  | core => rfl
  | padded _ hbefore hafter ih => rw [resolve_padded hbefore hafter, ih]
  | brackets _ ih => rw [resolve_brackets, ih, Function.iterate_succ_apply']
  | wrapped htext hopening ih =>
    obtain ⟨c, hc, hbracket⟩ := htext.exists_getLast? hne hopen
    rw [resolve_wrapped hopening hc hbracket, ih, Function.iterate_succ_apply']

/-- Layers of both forms around a class, with blanks wherever there may be some. -/
theorem resolve_eq_iterate_of_mixed_layers :
    peel " ARRAY[ Foo [] ] []".toList = (some "Foo".toList, 3) ∧
      resolve none false " ARRAY[ Foo [] ] []" .empty =
        (fun answer => answer.2.arrayOf answer.1)^[3] (resolve none false "Foo" .empty) := by
  have hblank : ∀ c ∈ [' '], Text.isBlank c = true := by decide
  have hinner : Layered "Foo".toList 1 ([] ++ "Foo".toList ++ [' '] ++ ['[', ']']) :=
    .brackets (.padded .core (fun c hc => absurd hc List.not_mem_nil) hblank)
  have hwrapped : Layered "Foo".toList 2
      ("ARRAY[".toList ++ ([' '] ++ ([] ++ "Foo".toList ++ [' '] ++ ['[', ']']) ++ [' ']) ++
        [']']) := .wrapped (.padded hinner hblank hblank) (by decide)
  obtain ⟨hpeel, hresolve⟩ := Layered.resolve_eq_iterate
    (.brackets (.padded hwrapped hblank hblank)) (by decide) (by decide) (by decide)
  exact ⟨hpeel, hresolve none false .empty⟩

end PhpTypes.TypeExpr
