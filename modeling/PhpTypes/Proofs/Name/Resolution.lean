import PhpTypes.Proofs.Name.Segments

/-!
# The rules of naming

`StandsFor` says which segments a raw name stands for in a scope. Each rule only speaks of the
pieces of the name, of the current namespace and of the imports that the scope holds; the order of
the rules is in their conditions. `resolveName_standsFor` shows that, without blanks, the rules give
every name exactly one list of segments, and that the resolved name consists of these.

Imports are looked up in lower case. In a scope that was built by imports (`Scope.Built`) this finds
the import whose alias agrees with the name up to letter case, and there is at most one.
-/

namespace PhpTypes

open QualifiedName (piecesOf isFixedWord)

namespace Scope

variable {s : Scope}

/-! ## Imports of a scope -/

/-- The scopes that the empty one becomes when namespaces are set and names are imported. -/
inductive Built : Scope → Prop
  | empty : Built .empty
  | setNamespace {s : Scope} (h : Built s) (text : Option String) : Built (s.setNamespace text)
  | addAlias {s : Scope} (h : Built s) (localName target : String) :
      Built (s.addAlias localName target)
  | addImport {s : Scope} (h : Built s) (target : String) : Built (s.addImport target)

/-- Some import binds a name that agrees with this one up to letter case to the target. -/
def Binds (s : Scope) (name target : String) : Prop :=
  ∃ entry ∈ s.imports, entry.1.foldCase = name.foldCase ∧ entry.2 = target

/-- Aliases are kept in lower case, and a target that is looked up is the one that is bound. -/
structure Indexed (s : Scope) : Prop where
  folded : ∀ entry ∈ s.imports, entry.1.foldCase = entry.1
  binds_iff : ∀ name target, s.Binds name target ↔ s.target? name = some target
  target : ∀ entry ∈ s.imports, piecesOf entry.2 ≠ []

/-- The empty scope finds what it binds, which is nothing. -/
theorem Indexed.empty : Indexed .empty where
  folded entry hentry := nomatch hentry
  binds_iff name target := by
    constructor
    · rintro ⟨entry, hentry, -⟩
      cases hentry
    · intro h
      cases h
  target entry hentry := nomatch hentry

/-- A text behind the backslashes at its start has a piece, unless it is empty. -/
theorem piecesOf_dropSeparators_ne_nil {text : String}
    (h : (dropSeparators text).isEmpty = false) : piecesOf (dropSeparators text) ≠ [] := by
  intro hnil
  rw [piecesOf, List.map_eq_nil_iff] at hnil
  cases hchars : (dropSeparators text).toList with
  | nil =>
    rw [String.toList_eq_nil_iff.mp hchars] at h
    cases h
  | cons c rest =>
    have hc : c ≠ '\\' := by
      rintro rfl
      have hnot := List.head?_dropWhile_not isSeparator text.toList
      rw [dropSeparators, String.toList_ofList] at hchars
      rw [hchars] at hnot
      have hfalse : isSeparator '\\' = false := hnot
      exact absurd hfalse (by decide)
    obtain ⟨piece, others, hpieces⟩ := Text.exists_pieces_cons hc rest
    rw [hchars, hpieces] at hnil
    cases hnil

/-- What is bound after an import. -/
theorem binds_addAlias (hfolded : ∀ entry ∈ s.imports, entry.1.foldCase = entry.1)
    (localName target name bound : String) :
    (s.addAlias localName target).Binds name bound ↔
      if localName.isEmpty || (dropSeparators target).isEmpty then s.Binds name bound
      else if name.foldCase = localName.foldCase then dropSeparators target = bound
      else s.Binds name bound := by
  unfold addAlias
  dsimp only
  split
  · rfl
  · simp only [Binds, List.mem_cons, List.mem_filter, bne_iff_ne, exists_eq_or_imp,
      String.foldCase_foldCase, eq_comm (a := localName.foldCase)]
    split
    · next hname =>
      constructor
      · rintro (⟨-, hbound⟩ | ⟨entry, ⟨hentry, hne⟩, hsame, -⟩)
        · exact hbound
        · -- Entries under this alias have been filtered out.
          rw [hfolded entry hentry, hname] at hsame
          exact absurd hsame hne
      · exact fun hbound => .inl ⟨hname, hbound⟩
    · next hname =>
      constructor
      · rintro (⟨hsame, -⟩ | ⟨entry, ⟨hentry, -⟩, hbinds⟩)
        · exact absurd hsame hname
        · exact ⟨entry, hentry, hbinds⟩
      · rintro ⟨entry, hentry, hsame, hbound⟩
        refine .inr ⟨entry, ⟨hentry, fun heq => hname ?_⟩, hsame, hbound⟩
        rw [← hsame, hfolded entry hentry, heq]

/-- After an import, aliases are still found in any letter case. -/
theorem Indexed.addAlias (h : s.Indexed) (localName target : String) :
    (s.addAlias localName target).Indexed := by
  by_cases hempty : localName = "" ∨ dropSeparators target = ""
  · rwa [addAlias_of_empty hempty]
  obtain ⟨hlocal, htarget⟩ := not_or.mp hempty
  refine ⟨?_, fun name bound => ?_, ?_⟩
  · rw [addAlias_of_ne hlocal htarget]
    exact List.forall_mem_cons.mpr ⟨String.foldCase_foldCase localName,
      fun entry hentry => h.folded entry (List.mem_filter.mp hentry).1⟩
  · rw [binds_addAlias h.folded, target?_addAlias]
    split
    · exact h.binds_iff name bound
    · split
      · rw [Option.some_inj]
      · exact h.binds_iff name bound
  · rw [addAlias_of_ne hlocal htarget]
    exact List.forall_mem_cons.mpr ⟨piecesOf_dropSeparators_ne_nil (by simpa using htarget),
      fun entry hentry => h.target entry (List.mem_filter.mp hentry).1⟩

/-- In a scope that was built, imports are found in any letter case. -/
theorem Built.indexed (h : s.Built) : s.Indexed := by
  induction h with
  | empty => exact .empty
  | setNamespace _ text ih => exact ⟨ih.folded, ih.binds_iff, ih.target⟩
  | addAlias _ localName target ih => exact ih.addAlias localName target
  | addImport _ target ih => exact ih.addAlias _ target

end Scope

/-! ## The rules -/

/-- The name is taken as it is: it is declared to be full, it starts with a backslash, or there is no
scope. -/
def IsFull (scope : Option Scope) (fullyQualified : Bool) (raw : String) : Prop :=
  fullyQualified = true ∨ raw.toList.head? = some '\\' ∨ scope = none

/-- The segments that a raw name stands for in a scope, or in no scope. -/
inductive StandsFor (scope : Option Scope) (fullyQualified : Bool) (raw : String) :
    List String → Prop
  | full (h : IsFull scope fullyQualified raw) : StandsFor scope fullyQualified raw (piecesOf raw)
  /-- A bare word that refers to the enclosing class or belongs to the vocabulary stays as it is. -/
  | word {word : String} (hfull : ¬ IsFull scope fullyQualified raw) (hraw : piecesOf raw = [word])
      (hword : isFixedWord word = true) : StandsFor scope fullyQualified raw [word]
  /-- The target of an import takes the place of the first segment. -/
  | imported {s : Scope} {first target : String} {rest : List String}
      (hfull : ¬ IsFull scope fullyQualified raw) (hraw : piecesOf raw = first :: rest)
      (hword : rest = [] → isFixedWord first = false) (hscope : scope = some s)
      (htarget : s.Binds first target) :
      StandsFor scope fullyQualified raw (piecesOf target ++ rest)
  /-- The word `namespace` in front of a name is the current namespace. -/
  | relative {s : Scope} {first : String} {rest : List String}
      (hfull : ¬ IsFull scope fullyQualified raw) (hraw : piecesOf raw = first :: rest)
      (hrest : rest ≠ []) (hscope : scope = some s) (hnone : ∀ target, ¬ s.Binds first target)
      (hfirst : first.foldCase = "namespace") :
      StandsFor scope fullyQualified raw (s.currentSegments ++ rest)
  /-- Any other name is one of the current namespace. -/
  | current {s : Scope} {first : String} {rest : List String}
      (hfull : ¬ IsFull scope fullyQualified raw) (hraw : piecesOf raw = first :: rest)
      (hword : rest = [] → isFixedWord first = false) (hscope : scope = some s)
      (hnone : ∀ target, ¬ s.Binds first target)
      (hfirst : rest = [] ∨ first.foldCase ≠ "namespace") :
      StandsFor scope fullyQualified raw (s.currentSegments ++ first :: rest)

variable {scope : Option Scope} {fullyQualified : Bool} {raw : String} {path : List String}

/-- A name whose first segment is imported stands for the target and its other segments. -/
theorem Scope.path_of_binds {s : Scope} (h : s.Indexed) {first target : String}
    (htarget : s.Binds first target) (rest : List String) :
    s.path first rest = piecesOf target ++ rest := by
  rw [Scope.path, (h.binds_iff first target).mp htarget]

/-- A name whose first segment is not imported stands behind the current namespace, without the word
`namespace` if it starts with that. -/
theorem Scope.path_of_forall_not_binds {s : Scope} (h : s.Indexed) {first : String}
    (hnone : ∀ target, ¬ s.Binds first target) (rest : List String) :
    s.path first rest = if first.foldCase = "namespace" ∧ rest ≠ [] then s.currentSegments ++ rest
      else s.currentSegments ++ first :: rest := by
  have htarget : s.target? first = none :=
    Option.eq_none_iff_forall_ne_some.mpr fun target heq =>
      hnone target ((h.binds_iff first target).mpr heq)
  rw [Scope.path, htarget]

/-- A full name stands for its own pieces. -/
theorem namePath_of_isFull (h : IsFull scope fullyQualified raw) :
    namePath scope fullyQualified raw = piecesOf raw := by
  unfold namePath
  split
  · rfl
  · next hnot =>
    rcases h with h | h | rfl
    · exact absurd (.inl h) hnot
    · exact absurd (.inr h) hnot
    · rfl

/-- A bare fixed word stands for itself, and any other name for what the scope makes of it. -/
theorem namePath_of_not_isFull {s : Scope} {first : String} {rest : List String}
    (h : ¬ IsFull (some s) fullyQualified raw) (hraw : piecesOf raw = first :: rest) :
    namePath (some s) fullyQualified raw =
      if rest = [] ∧ isFixedWord first = true then [first] else s.path first rest := by
  have hnot : ¬ (fullyQualified = true ∨ raw.toList.head? = some '\\') :=
    fun heq => h (heq.imp_right .inl)
  unfold namePath
  rw [if_neg hnot, hraw]

/-- The rules give no other segments than those that are computed. -/
theorem StandsFor.eq_namePath (h : StandsFor scope fullyQualified raw path)
    (hscope : ∀ s ∈ scope, s.Indexed) : path = namePath scope fullyQualified raw := by
  cases h with
  | full h => exact (namePath_of_isFull h).symm
  | word hfull hraw hword =>
    cases scope with
    | none => exact absurd (.inr (.inr rfl)) hfull
    | some s => rw [namePath_of_not_isFull hfull hraw, if_pos ⟨rfl, hword⟩]
  | imported hfull hraw hword hsome htarget =>
    subst hsome
    rw [namePath_of_not_isFull hfull hraw, if_neg (by grind),
      Scope.path_of_binds (hscope _ rfl) htarget]
  | relative hfull hraw hrest hsome hnone hfirst =>
    subst hsome
    rw [namePath_of_not_isFull hfull hraw, if_neg (fun h => hrest h.1),
      Scope.path_of_forall_not_binds (hscope _ rfl) hnone, if_pos ⟨hfirst, hrest⟩]
  | current hfull hraw hword hsome hnone hfirst =>
    subst hsome
    rw [namePath_of_not_isFull hfull hraw, if_neg (by grind),
      Scope.path_of_forall_not_binds (hscope _ rfl) hnone, if_neg (by grind)]

/-- Some rule applies to every name that has a piece. -/
theorem standsFor_namePath (hscope : ∀ s ∈ scope, s.Indexed) (hne : piecesOf raw ≠ []) :
    StandsFor scope fullyQualified raw (namePath scope fullyQualified raw) := by
  obtain ⟨first, rest, hraw⟩ := List.exists_cons_of_ne_nil hne
  by_cases hfull : IsFull scope fullyQualified raw
  · rw [namePath_of_isFull hfull]
    exact .full hfull
  · obtain ⟨s, rfl⟩ : ∃ s, scope = some s :=
      Option.ne_none_iff_exists'.mp fun hnone => hfull (.inr (.inr hnone))
    rw [namePath_of_not_isFull hfull hraw]
    split
    · next hword =>
      obtain ⟨rfl, hword⟩ := hword
      exact .word hfull hraw hword
    · next hword =>
      -- From here on the name is no bare fixed word, so the scope decides.
      have hfree : rest = [] → isFixedWord first = false :=
        fun hrest => Bool.eq_false_iff.mpr fun hfixed => hword ⟨hrest, hfixed⟩
      by_cases hbound : ∃ target, s.Binds first target
      · obtain ⟨target, htarget⟩ := hbound
        rw [Scope.path_of_binds (hscope s rfl) htarget]
        exact .imported hfull hraw hfree rfl htarget
      · have hnone := not_exists.mp hbound
        rw [Scope.path_of_forall_not_binds (hscope s rfl) hnone]
        split
        · next hfirst => exact .relative hfull hraw hfirst.2 rfl hnone hfirst.1
        · next hfirst => exact .current hfull hraw hfree rfl hnone (by grind)

/-- **Names are resolved by the rules.** If no blanks occur, the rules give a name one list of
segments. The last one is the simple name that it is resolved to, and the others are its namespace. -/
theorem resolveName_standsFor
    (hscope : ∀ s ∈ scope, s.Built ∧ s.AllTexts fun text =>
      ∀ c ∈ text.toList, Text.isBlank c = false)
    (hraw : ∀ c ∈ raw.toList, Text.isBlank c = false) (hne : piecesOf raw ≠ [])
    (fullyQualified : Bool) (path : List String) :
    StandsFor scope fullyQualified raw path ↔
      path = (resolveName scope raw fullyQualified).spaces ++
        [(resolveName scope raw fullyQualified).name] := by
  have hindexed : ∀ s ∈ scope, s.Indexed := fun s hs => (hscope s hs).1.indexed
  have hblanks : KeepsBlanks scope fullyQualified raw :=
    .of_noBlanks (fun s hs => (hscope s hs).2) hraw
  have hpath : namePath scope fullyQualified raw ≠ [] := by
    refine namePath_ne_nil hne fun s hs name target htarget => ?_
    obtain ⟨entry, hentry, -, rfl⟩ := ((hindexed s hs).binds_iff name target).mpr htarget
    exact (hindexed s hs).target entry hentry
  have hsegments : (resolveName scope raw fullyQualified).segments =
      namePath scope fullyQualified raw := by
    rw [resolveName_eq_ofSegments hblanks hne, QualifiedName.segments_ofSegments hpath]
  change _ ↔ path = (resolveName scope raw fullyQualified).segments
  rw [hsegments]
  constructor
  · exact fun h => h.eq_namePath hindexed
  · rintro rfl
    exact standsFor_namePath hindexed hne

/-- An import with backslashes to spare, and a name in another letter case with more of them. -/
theorem resolveName_standsFor_of_import :
    StandsFor (some ((Scope.ofNamespace (some "App")).addAlias "Models" "\\Lib\\\\Orm\\")) false
      "models\\\\User\\" ["Lib", "Orm", "User"] := by
  have hbuilt : ((Scope.ofNamespace (some "App")).addAlias "Models" "\\Lib\\\\Orm\\").Built :=
    (Scope.Built.empty.setNamespace _).addAlias _ _
  have hcurrent : ∀ text ∈ (Scope.ofNamespace (some "App")).current,
      ∀ c ∈ text.toList, Text.isBlank c = false := by decide
  refine (resolveName_standsFor (fun s hs => ?_) (by decide) (by decide) false _).mpr (by decide)
  rw [← Option.some.inj hs]
  exact ⟨hbuilt, hcurrent, by decide⟩

end PhpTypes
