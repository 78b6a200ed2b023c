import PhpTypes.Proofs.DocComment.Lookup
import PhpTypes.Proofs.DocComment.ReturnType
import PhpTypes.Proofs.Signature.Merge

/-!
# The entries of a signature

Every entry of a signature takes its type from the doc comment, or else from the native hint, or
else from nothing (`Signature.Entry`). The text that it takes means what it means when it is read
alone in an empty registry (`typeAlone`), although all entries are resolved in one registry, one
after the other: no entry can tell what was resolved before it.

Resolving one parameter gives its entry (`resolveParameter_isEntryOf`), in whatever registry that
happens. An entry stays what it is when the registry grows, so resolving all of them gives all
entries, by induction over the parameters (`resolveParameters_isEntryOf`).
-/

namespace PhpTypes

/-! ## What a doc comment gives -/

namespace DocComment

variable {doc : Option DocComment} {index : Nat} {name text text' : String}

/-- The tag that documents the parameter at a position gives it the type. -/
def GivesParameter (doc : Option DocComment) (index : Nat) (name text : String) : Prop :=
  ∃ tag, findParam doc index name = some tag ∧ tag.type = some text

/-- The doc comment gives the result the type. -/
def GivesReturn (doc : Option DocComment) (text : String) : Prop :=
  ∃ d ∈ doc, d.ReturnsType text

/-- A doc comment gives a parameter at most one type. -/
theorem GivesParameter.unique (h : GivesParameter doc index name text)
    (h' : GivesParameter doc index name text') : text' = text := by
  obtain ⟨tag, htag, htype⟩ := h
  obtain ⟨tag', htag', htype'⟩ := h'
  obtain rfl := Option.some.inj (htag.symm.trans htag')
  exact Option.some.inj (htype'.symm.trans htype)

/-- Looking for the type of the result finds the one that the doc comment gives. -/
theorem bind_returnType?_eq_some_iff :
    doc.bind returnType? = some text ↔ GivesReturn doc text := by
  rw [Option.bind_eq_some_iff]
  exact exists_congr fun d => and_congr_right' returnType?_eq_some_iff

/-- A doc comment gives the result at most one type. -/
theorem GivesReturn.unique (h : GivesReturn doc text) (h' : GivesReturn doc text') :
    text' = text := by
  rw [← bind_returnType?_eq_some_iff] at h h'
  exact Option.some.inj (h'.symm.trans h)

end DocComment

namespace Signature

variable {r r' : Registry} {scope : Scope}

/-! ## Texts on their own -/

/-- The type of a text that is read alone in an empty registry. -/
noncomputable def typeAlone (scope : Scope) (text : String) : PhpType :=
  (TypeExpr.resolveText (some scope) text .empty).2.typeOf
    (TypeExpr.resolveText (some scope) text .empty).1

/-- A text means in every registry what it means alone. -/
theorem resolveText_yields_typeAlone (h : r.WellFormed) (scope : Scope) (text : String) :
    r.Yields (typeAlone scope text) (TypeExpr.resolveText (some scope) text r) := by
  have halone : Registry.empty.Yields
      (TypeExpr.annotationsType (some scope) false (TypeExpr.splitAlternatives text))
      (TypeExpr.resolveText (some scope) text .empty) := TypeExpr.resolveAll_yields .empty _
  rw [typeAlone, halone.typeOf_eq]
  exact TypeExpr.resolveAll_yields h _

/-! ## Entries -/

/-- A mask with its provenance, taken from what is documented, or else from the native hint, or else
from nothing. A text that it is taken from means what it means alone. -/
inductive Entry (documented : String → Prop) (hint : Option String) (scope : Scope)
    (r : Registry) : Mask → Provenance → Prop where
  | docComment {m : Mask} {text : String} (hdoc : documented text)
      (htype : r.typeOf m = typeAlone scope text) : Entry documented hint scope r m .docComment
  | native {m : Mask} {text : String} (hnone : ∀ text, ¬ documented text) (hhint : hint = some text)
      (htype : r.typeOf m = typeAlone scope text) : Entry documented hint scope r m .native
  | absent (hnone : ∀ text, ¬ documented text) (hhint : hint = none) :
      Entry documented hint scope r .void .absent

/-- The entry of a parameter at a position. -/
structure IsEntryOf (doc : Option DocComment) (scope : Scope) (index : Nat) (parameter : Parameter)
    (r : Registry) (entry : ResolvedParameter) : Prop where
  name_eq : entry.name = bareName parameter.name
  entry : Entry (DocComment.GivesParameter doc index (bareName parameter.name)) parameter.hint scope
    r entry.mask entry.provenance

variable {documented : String → Prop} {hint : Option String} {m m' : Mask} {p p' : Provenance}

/-- An entry stays what it is when the registry grows. -/
theorem Entry.extend (h : Entry documented hint scope r m p) (hr : r.WellFormed)
    (hext : r.Extends r') (hm : r.Owns m) : Entry documented hint scope r' m p := by
  have hsame : r'.typeOf m = r.typeOf m := Registry.typeOf_extend hr hext hm
  cases h with
  | docComment hdoc htype => exact .docComment hdoc (hsame.trans htype)
  | native hnone hhint htype => exact .native hnone hhint (hsame.trans htype)
  | absent hnone hhint => exact .absent hnone hhint

/-- What is documented comes first. -/
theorem Entry.of_documented {text : String} (h : Entry documented hint scope r m p)
    (hdoc : documented text) (hunique : ∀ text', documented text' → text' = text) :
    r.typeOf m = typeAlone scope text ∧ p = .docComment := by
  cases h with
  | docComment hdoc' htype =>
    obtain rfl := hunique _ hdoc'
    exact ⟨htype, rfl⟩
  | native hnone => exact absurd hdoc (hnone text)
  | absent hnone => exact absurd hdoc (hnone text)

/-- The native hint fills a gap in the documentation. -/
theorem Entry.of_hint {text : String} (h : Entry documented (some text) scope r m p)
    (hnone : ∀ text, ¬ documented text) : r.typeOf m = typeAlone scope text ∧ p = .native := by
  cases h with
  | docComment hdoc => exact absurd hdoc (hnone _)
  | native _ hhint htype =>
    obtain rfl := Option.some.inj hhint
    exact ⟨htype, rfl⟩
  | absent _ hhint => cases hhint

/-- Without a documented type and without a hint, nothing is known. -/
theorem Entry.of_nothing (h : Entry documented none scope r m p)
    (hnone : ∀ text, ¬ documented text) : m = .void ∧ p = .absent := by
  cases h with
  | docComment hdoc => exact absurd hdoc (hnone _)
  | native _ hhint => cases hhint
  | absent => exact ⟨rfl, rfl⟩

/-- What an entry says is settled by the documentation and the native hint. -/
theorem Entry.agree (h : Entry documented hint scope r m p)
    (h' : Entry documented hint scope r' m' p') (hr : r.WellFormed) (hr' : r'.WellFormed)
    (hunique : ∀ text text', documented text → documented text' → text' = text) :
    r.SameType r' m m' ∧ p' = p := by
  cases h with
  | docComment hdoc htype =>
    obtain ⟨htype', rfl⟩ := h'.of_documented hdoc fun text' => hunique _ text' hdoc
    exact ⟨htype'.trans htype.symm, rfl⟩
  | native hnone hhint htype =>
    subst hhint
    obtain ⟨htype', rfl⟩ := h'.of_hint hnone
    exact ⟨htype'.trans htype.symm, rfl⟩
  | absent hnone hhint =>
    subst hhint
    obtain ⟨rfl, rfl⟩ := h'.of_nothing hnone
    refine ⟨?_, rfl⟩
    show r'.typeOf .void = r.typeOf .void
    rw [(Registry.yields_void hr).typeOf_eq, (Registry.yields_void hr').typeOf_eq]

/-- The entry of a parameter says the same everywhere. -/
theorem IsEntryOf.agree {doc : Option DocComment} {index : Nat} {parameter : Parameter}
    {entry entry' : ResolvedParameter} (h : IsEntryOf doc scope index parameter r entry)
    (h' : IsEntryOf doc scope index parameter r' entry') (hr : r.WellFormed) (hr' : r'.WellFormed) :
    ResolvedParameter.Agree (r.SameType r') entry entry' := by
  obtain ⟨htype, hprovenance⟩ :=
    h.entry.agree h'.entry hr hr' fun _ _ => DocComment.GivesParameter.unique
  exact ⟨h'.name_eq.trans h.name_eq.symm, htype, hprovenance⟩

/-! ## Resolving one entry -/

variable {routine : Routine} {index : Nat} {parameter : Parameter} {text : String}

/-- A hint is read as it stands, and the entry says that it is native. -/
theorem resolveHint_some (scope : Scope) (hint : String) (r : Registry) :
    resolveHint scope (some hint) r =
      (((TypeExpr.resolveText (some scope) hint r).1, .native),
        (TypeExpr.resolveText (some scope) hint r).2) := by
  simp only [resolveHint]

/-- A documented parameter takes its type from the doc comment. -/
theorem resolveParameter_of_gives
    (h : DocComment.GivesParameter routine.doc index (bareName parameter.name) text)
    (r : Registry) : resolveParameter routine index parameter r =
      (⟨bareName parameter.name, (TypeExpr.resolveText (some routine.scope) text r).1, .docComment⟩,
        (TypeExpr.resolveText (some routine.scope) text r).2) := by
  obtain ⟨tag, htag, htext⟩ := h
  have hfound : (DocComment.findParam routine.doc index (bareName parameter.name)).filter
      (·.type.isSome) = some tag :=
    Option.filter_eq_some_iff.mpr ⟨htag, by rw [htext]; rfl⟩
  have halternatives : tag.alternatives = TypeExpr.splitAlternatives text := by
    rw [ParamTag.alternatives, htext, Option.map_some, Option.getD_some]
  rw [bareName] at hfound
  simp only [resolveParameter, hfound, halternatives]
  rfl

/-- A parameter that is not documented takes its type from its hint. -/
theorem resolveParameter_of_not_gives
    (h : ∀ text, ¬ DocComment.GivesParameter routine.doc index (bareName parameter.name) text)
    (r : Registry) : resolveParameter routine index parameter r =
      (⟨bareName parameter.name, (resolveHint routine.scope parameter.hint r).1.1,
          (resolveHint routine.scope parameter.hint r).1.2⟩,
        (resolveHint routine.scope parameter.hint r).2) := by
  have hnone : (DocComment.findParam routine.doc index (bareName parameter.name)).filter
      (·.type.isSome) = none := by
    refine Option.filter_eq_none_iff.mpr fun tag htag hsome => ?_
    obtain ⟨text, htext⟩ := Option.isSome_iff_exists.mp hsome
    exact h text ⟨tag, htag, htext⟩
  rw [bareName] at hnone
  simp only [resolveParameter, hnone]
  rfl

/-- A documented result takes its type from the doc comment. -/
theorem resolveReturn_of_gives (h : DocComment.GivesReturn routine.doc text) (r : Registry) :
    resolveReturn routine r =
      (((TypeExpr.resolveText (some routine.scope) text r).1, .docComment),
        (TypeExpr.resolveText (some routine.scope) text r).2) := by
  simp only [resolveReturn, DocComment.bind_returnType?_eq_some_iff.mpr h]

/-- A result that is not documented takes its type from its hint. -/
theorem resolveReturn_of_not_gives (h : ∀ text, ¬ DocComment.GivesReturn routine.doc text)
    (r : Registry) :
    resolveReturn routine r = resolveHint routine.scope routine.returnHint r := by
  have hnone : routine.doc.bind DocComment.returnType? = none :=
    Option.eq_none_iff_forall_ne_some.mpr fun text htext =>
      h text (DocComment.bind_returnType?_eq_some_iff.mp htext)
  simp only [resolveReturn, hnone]

/-- Without documentation, the native hint makes the entry. -/
theorem resolveHint_entry (h : r.WellFormed) (hnone : ∀ text, ¬ documented text) :
    Entry documented hint scope (resolveHint scope hint r).2 (resolveHint scope hint r).1.1
      (resolveHint scope hint r).1.2 := by
  cases hint with
  | none => exact .absent hnone rfl
  | some hint =>
    rw [resolveHint_some]
    dsimp only
    exact .native hnone rfl (resolveText_yields_typeAlone h scope hint).typeOf_eq

/-- Resolving a parameter gives its entry, whatever the registry holds. -/
theorem resolveParameter_isEntryOf (h : r.WellFormed) (routine : Routine) (index : Nat)
    (parameter : Parameter) :
    IsEntryOf routine.doc routine.scope index parameter
      (resolveParameter routine index parameter r).2
      (resolveParameter routine index parameter r).1 := by
  by_cases hdoc : ∃ text,
      DocComment.GivesParameter routine.doc index (bareName parameter.name) text
  · obtain ⟨text, hgives⟩ := hdoc
    rw [resolveParameter_of_gives hgives]
    refine ⟨rfl, ?_⟩
    dsimp only
    exact .docComment hgives (resolveText_yields_typeAlone h routine.scope text).typeOf_eq
  · rw [resolveParameter_of_not_gives (not_exists.mp hdoc)]
    exact ⟨rfl, resolveHint_entry h (not_exists.mp hdoc)⟩

/-- Resolving the result gives its entry, whatever the registry holds. -/
theorem resolveReturn_entry (h : r.WellFormed) (routine : Routine) :
    Entry (DocComment.GivesReturn routine.doc) routine.returnHint routine.scope
      (resolveReturn routine r).2 (resolveReturn routine r).1.1 (resolveReturn routine r).1.2 := by
  by_cases hdoc : ∃ text, DocComment.GivesReturn routine.doc text
  · obtain ⟨text, hgives⟩ := hdoc
    rw [resolveReturn_of_gives hgives]
    dsimp only
    exact .docComment hgives (resolveText_yields_typeAlone h routine.scope text).typeOf_eq
  · rw [resolveReturn_of_not_gives (not_exists.mp hdoc)]
    exact resolveHint_entry h (not_exists.mp hdoc)

/-! ## Resolving all entries -/

/-- Parameters are resolved from the first to the last. -/
theorem resolveParameters_cons (routine : Routine) (index : Nat) (parameter : Parameter)
    (rest : List Parameter) (r : Registry) :
    resolveParameters routine index (parameter :: rest) r =
      ((resolveParameter routine index parameter r).1 ::
          (resolveParameters routine (index + 1) rest
            (resolveParameter routine index parameter r).2).1,
        (resolveParameters routine (index + 1) rest
          (resolveParameter routine index parameter r).2).2) :=
  rfl

/-- Resolving parameters keeps a registry well-formed and gives masks of the registry. -/
theorem resolveParameters_sound (h : r.WellFormed) (routine : Routine) (index : Nat)
    (parameters : List Parameter) :
    (resolveParameters routine index parameters r).2.WellFormed ∧
      r.Extends (resolveParameters routine index parameters r).2 ∧
      ∀ entry ∈ (resolveParameters routine index parameters r).1,
        (resolveParameters routine index parameters r).2.Owns entry.mask := by
  have hsound := Request.runAll_sound h fun _ hq =>
    @inputs_of_mem_parameterRequests routine parameters index _ hq
  rw [← resolveParameters_eq] at hsound
  obtain ⟨hwf, hext, howns⟩ := hsound
  exact ⟨hwf, hext, fun entry hentry => howns _ (List.mem_map_of_mem hentry)⟩

/-- There is one entry for each parameter. -/
theorem length_resolveParameters (routine : Routine) (index : Nat) (parameters : List Parameter)
    (r : Registry) :
    (resolveParameters routine index parameters r).1.length = parameters.length := by
  induction parameters generalizing index r with
  | nil => rfl
  | cons parameter rest ih => rw [resolveParameters_cons, List.length_cons, List.length_cons, ih]

/-- Resolving parameters from a position on gives the entry of each. -/
theorem resolveParameters_isEntryOf (h : r.WellFormed) (routine : Routine) (index : Nat)
    (parameters : List Parameter) {i : Nat} {parameter : Parameter}
    (hparameter : parameters[i]? = some parameter) :
    ∃ entry, (resolveParameters routine index parameters r).1[i]? = some entry ∧
      IsEntryOf routine.doc routine.scope (index + i) parameter
        (resolveParameters routine index parameters r).2 entry := by
  induction parameters generalizing index i r with
  | nil => simp at hparameter
  | cons first rest ih =>
    have hyields := (parameterRequest routine index first).run_yields h
      (Request.forall_mem_inputs (inputs_parameterRequest routine index first))
    rw [← resolveParameter_eq] at hyields
    rw [resolveParameters_cons]
    cases i with
    | zero =>
      obtain rfl : first = parameter := Option.some.inj hparameter
      obtain ⟨-, hext, -⟩ := resolveParameters_sound hyields.wellFormed routine (index + 1) rest
      obtain ⟨hname, hentry⟩ := resolveParameter_isEntryOf h routine index first
      exact ⟨_, rfl, hname, hentry.extend hyields.wellFormed hext hyields.owns⟩
    | succ i =>
      rw [List.getElem?_cons_succ] at hparameter
      obtain ⟨entry, hget, hentry⟩ := ih hyields.wellFormed (index + 1) hparameter
      rw [Nat.add_right_comm] at hentry
      exact ⟨entry, hget, hentry⟩

/-- A signature has an entry for each parameter. -/
theorem resolve_isEntryOf (h : r.WellFormed) {i : Nat}
    (hparameter : routine.parameters[i]? = some parameter) :
    ∃ entry, (resolve routine r).1.parameters[i]? = some entry ∧
      IsEntryOf routine.doc routine.scope i parameter (resolve routine r).2 entry := by
  obtain ⟨hwf, -, howns⟩ := resolveParameters_sound h routine 0 routine.parameters
  obtain ⟨entry, hget, hname, hentry⟩ :=
    resolveParameters_isEntryOf h routine 0 routine.parameters hparameter
  rw [Nat.zero_add] at hentry
  have hyields := (returnRequest routine).run_yields hwf
    (Request.forall_mem_inputs (inputs_returnRequest routine))
  rw [← resolveReturn_eq] at hyields
  exact ⟨entry, hget, hname,
    hentry.extend hwf hyields.grows (howns entry (List.mem_of_getElem? hget))⟩

/-- A signature has an entry for the result. -/
theorem resolve_returns_entry (h : r.WellFormed) (routine : Routine) :
    Entry (DocComment.GivesReturn routine.doc) routine.returnHint routine.scope
      (resolve routine r).2 (resolve routine r).1.returns (resolve routine r).1.returnProvenance :=
  resolveReturn_entry (resolveParameters_sound h routine 0 routine.parameters).1 routine

end Signature

namespace Context

open Signature in
/-- **Every entry of a signature is resolved on its own.** There is one entry for each parameter, in
order, and one for the result. Each is taken from the doc comment, or else from the native hint, or
else from nothing, and its type is the one that the text it was taken from has alone.

So an entry is the same in every reachable context and for every routine with the same doc comment
and scope, whatever its other parameters are, and whatever was resolved before. -/
theorem Reachable.resolveSignature_entries {c : Context} (hc : c.Reachable) (routine : Routine) :
    let answer := Signature.resolve routine c.registry
    answer.1.parameters.length = routine.parameters.length ∧
    (∀ i parameter, routine.parameters[i]? = some parameter →
      ∃ entry, answer.1.parameters[i]? = some entry ∧
        IsEntryOf routine.doc routine.scope i parameter answer.2 entry) ∧
    Entry (DocComment.GivesReturn routine.doc) routine.returnHint routine.scope answer.2
      answer.1.returns answer.1.returnProvenance ∧
    ∀ c' : Context, c'.Reachable → ∀ routine' : Routine,
      routine'.doc = routine.doc → routine'.scope = routine.scope →
      let answer' := Signature.resolve routine' c'.registry
      (∀ (i : Nat) parameter entry entry', routine.parameters[i]? = some parameter →
        routine'.parameters[i]? = some parameter → answer.1.parameters[i]? = some entry →
        answer'.1.parameters[i]? = some entry' →
        ResolvedParameter.Agree (answer.2.SameType answer'.2) entry entry') ∧
      (routine'.returnHint = routine.returnHint →
        answer.2.SameType answer'.2 answer.1.returns answer'.1.returns ∧
          answer'.1.returnProvenance = answer.1.returnProvenance) := by
  intro answer
  have hwf := hc.sound.wellFormed
  have hreturn := resolve_returns_entry hwf routine
  refine ⟨length_resolveParameters _ _ _ _, fun i parameter => resolve_isEntryOf hwf, hreturn, ?_⟩
  intro c' hc' routine' hdoc hscope answer'
  have hwf' := hc'.sound.wellFormed
  constructor
  · intro i parameter entry entry' hparameter hparameter' hget hget'
    -- Both entries are what the same doc comment, scope and parameter say they are.
    obtain ⟨found, hfound, hentry⟩ := resolve_isEntryOf hwf hparameter
    obtain ⟨found', hfound', hentry'⟩ := resolve_isEntryOf hwf' hparameter'
    obtain rfl : found = entry := Option.some.inj (hfound.symm.trans hget)
    obtain rfl : found' = entry' := Option.some.inj (hfound'.symm.trans hget')
    rw [hdoc, hscope] at hentry'
    exact hentry.agree hentry' (resolve_sound hwf routine).1 (resolve_sound hwf' routine').1
  · intro hhint
    have hreturn' := resolve_returns_entry hwf' routine'
    rw [hdoc, hscope, hhint] at hreturn'
    exact hreturn.agree hreturn' (resolve_sound hwf routine).1 (resolve_sound hwf' routine').1
      fun _ _ => DocComment.GivesReturn.unique

/-- A routine whose doc comment leaves gaps: the tag of the second parameter has no type, and the
third parameter has no tag. -/
def gappy : Routine where
  name := "f"
  className := none
  parameters := [⟨"$a", some "string", false⟩, ⟨"$b", some "Foo[]", false⟩, ⟨"$c", none, false⟩]
  returnHint := some "int"
  doc := some ⟨"", [.param ⟨some "a", some "int", "", false⟩, .param ⟨some "B", none, "", false⟩,
    .other ⟨"Return", "array<int, Foo> all of them"⟩]⟩
  scope := .empty

/-- The gaps are filled by the native hint of the second parameter and by nothing. The result keeps
its type if all parameters are left out and nothing was read before. -/
theorem resolveSignature_entries_of_gaps :
    let answer := Signature.resolve gappy (reading "Foo").registry
    let alone := Signature.resolve { gappy with parameters := [] } empty.registry
    (reading "Foo").Reachable ∧ empty.Reachable ∧
      (∃ b, answer.1.parameters[1]? = some b ∧ b.name = "b" ∧ b.provenance = .native ∧
        answer.2.typeOf b.mask = Signature.typeAlone gappy.scope "Foo[]") ∧
      (∃ c, answer.1.parameters[2]? = some c ∧ c.provenance = .absent ∧ c.mask = .void) ∧
      answer.1.returnProvenance = .docComment ∧
      answer.2.typeOf answer.1.returns = Signature.typeAlone gappy.scope "array<int, Foo>" ∧
      answer.2.SameType alone.2 answer.1.returns alone.1.returns := by
  intro answer alone
  obtain ⟨-, hentries, hreturn, hsame⟩ :=
    Reachable.resolveSignature_entries (.reading "Foo") gappy
  obtain ⟨b, hb, hname, hentry⟩ := hentries 1 ⟨"$b", some "Foo[]", false⟩ rfl
  obtain ⟨c, hc, -, hentry'⟩ := hentries 2 ⟨"$c", none, false⟩ rfl
  have htag : DocComment.findParam gappy.doc 1 (bareName "$b") =
      some ⟨some "B", none, "", false⟩ := by decide
  have hnone : DocComment.findParam gappy.doc 2 (bareName "$c") = none := by decide
  have hreturns : DocComment.GivesReturn gappy.doc "array<int, Foo>" :=
    DocComment.bind_returnType?_eq_some_iff.mp (by decide)
  obtain ⟨htype, hnative⟩ := hentry.of_hint fun text ⟨tag, hfound, htext⟩ => by
    obtain rfl := Option.some.inj (htag.symm.trans hfound)
    cases htext
  obtain ⟨hvoid, habsent⟩ := hentry'.of_nothing fun text ⟨tag, hfound, _⟩ => by
    cases hnone.symm.trans hfound
  obtain ⟨htype', hdocumented⟩ := hreturn.of_documented hreturns fun _ => hreturns.unique
  obtain ⟨-, hreturn'⟩ := hsame empty .empty { gappy with parameters := [] } rfl rfl
  exact ⟨.reading "Foo", .empty, ⟨b, hb, hname, hnative, htype⟩, ⟨c, hc, habsent, hvoid⟩,
    hdocumented, htype', (hreturn' rfl).1⟩

end Context

end PhpTypes
