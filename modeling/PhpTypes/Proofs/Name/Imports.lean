import Mathlib.Data.List.Forall2
import PhpTypes.Proofs.Name.Resolution
import PhpTypes.Proofs.Text.Ends

/-!
# Runs of imports

A scope is built step by step: a step sets the namespace, or imports a target under a given alias or
under its last segment. The scope that a run of steps leaves behind is described by the steps
themselves (`Scope.Reflects`): its namespace is the one that was set last, and a name is bound to
the target of the last step that registers it, in any letter case. Steps that register nothing
change nothing (`Scope.Step.apply_of_isRefused`).

Both parts are instances of one fact about runs: if a step either sets a value or leaves the old one
alone, a run leaves behind the value that was set last (`foldl_iff_lastSet`).

Steps in different letter case build scopes that agree up to letter case (`Scope.SameCase.build`).
-/

namespace PhpTypes

/-! ## The value that is set last -/

section LastSet

variable {σ α β : Type} {f : σ → α → σ} {P : σ → β → Prop} {W : α → β → Prop}

/-- The last of the steps that set a value sets this one. -/
def LastSet (W : α → β → Prop) (steps : List α) (b : β) : Prop :=
  ∃ before step after, steps = before ++ step :: after ∧ W step b ∧
    ∀ later ∈ after, ∀ other, ¬ W later other

/-- Without steps nothing is set. -/
theorem lastSet_nil {b : β} : ¬ LastSet W [] b := by
  rintro ⟨before, step, after, h, -⟩
  simp at h

/-- The last value is set by a later step, or by the first one if no later step sets any. -/
theorem lastSet_cons {step : α} {rest : List α} {b : β} : LastSet W (step :: rest) b ↔
    LastSet W rest b ∨ (∀ later ∈ rest, ∀ other, ¬ W later other) ∧ W step b := by
  constructor
  · rintro ⟨before, last, after, h, hsets, hafter⟩
    rcases List.cons_eq_append_iff.mp h with ⟨rfl, hrest⟩ | ⟨before, rfl, rfl⟩
    · obtain ⟨rfl, rfl⟩ := List.cons.inj hrest
      exact .inr ⟨hafter, hsets⟩
    · exact .inl ⟨before, last, after, rfl, hsets, hafter⟩
  · rintro (⟨before, last, after, rfl, hsets, hafter⟩ | ⟨hrest, hsets⟩)
    · exact ⟨step :: before, last, after, rfl, hsets, hafter⟩
    · exact ⟨[], step, rest, rfl, hsets, hrest⟩

/-- A step that sets nothing keeps what is there. -/
theorem iff_of_keeps {W : β → Prop} {b : β} {p : Prop} (hkeeps : ∀ other, ¬ W other) :
    p ↔ W b ∨ (∀ other, ¬ W other) ∧ p :=
  ⟨fun h => .inr ⟨hkeeps, h⟩, fun h => h.elim (fun hsets => absurd hsets (hkeeps b)) And.right⟩

/-- If every step either sets a value or keeps the old one, a run leaves behind the value that was
set last. -/
theorem foldl_iff_lastSet (hstep : ∀ s step b, P (f s step) b ↔
      W step b ∨ (∀ other, ¬ W step other) ∧ P s b) (steps : List α) (s : σ) (b : β) :
    P (steps.foldl f s) b ↔
      LastSet W steps b ∨ (∀ step ∈ steps, ∀ other, ¬ W step other) ∧ P s b := by
  induction steps generalizing s with
  | nil => simp [lastSet_nil]
  | cons step rest ih =>
    rw [List.foldl_cons, ih, hstep, lastSet_cons, List.forall_mem_cons]
    constructor
    · rintro (hlast | ⟨hrest, hsets | ⟨hkeeps, hs⟩⟩)
      · exact .inl (.inl hlast)
      · exact .inl (.inr ⟨hrest, hsets⟩)
      · exact .inr ⟨⟨hkeeps, hrest⟩, hs⟩
    · rintro ((hlast | ⟨hrest, hsets⟩) | ⟨⟨hkeeps, hrest⟩, hs⟩)
      · exact .inl hlast
      · exact .inr ⟨hrest, .inl hsets⟩
      · exact .inr ⟨hrest, .inr ⟨hkeeps, hs⟩⟩

end LastSet

namespace Scope

/-! ## Backslashes at the ends of a text -/

variable {text target segment space : String}

/-- The target is the text without the backslashes at its start. -/
def Strips (text target : String) : Prop :=
  target.toList.head? ≠ some '\\' ∧
    ∃ lead, (∀ c ∈ lead, c = '\\') ∧ text.toList = lead ++ target.toList

/-- The segment is what follows the last backslash, or the whole text. -/
def IsLastSegment (text segment : String) : Prop :=
  '\\' ∉ segment.toList ∧
    ∃ before, (∀ c, before.getLast? = some c → c = '\\') ∧
      text.toList = before ++ segment.toList

/-- The space is the text without the backslashes at its two ends. -/
def IsInner (text space : String) : Prop :=
  space.toList.head? ≠ some '\\' ∧ space.toList.getLast? ≠ some '\\' ∧
    ∃ lead trail, (∀ c ∈ lead, c = '\\') ∧ (∀ c ∈ trail, c = '\\') ∧
      text.toList = lead ++ space.toList ++ trail

/-- Only the backslash separates segments. -/
theorem isSeparator_eq_true {c : Char} : isSeparator c = true ↔ c = '\\' :=
  beq_iff_eq

/-- A character that may be missing is no separator exactly if it is no backslash. -/
theorem forall_isSeparator_eq_false {c? : Option Char} :
    (∀ c, c? = some c → isSeparator c = false) ↔ c? ≠ some '\\' := by
  simp only [isSeparator, beq_eq_false_iff_ne]
  exact ⟨fun h heq => h _ heq rfl, fun h c hc heq => h (heq ▸ hc)⟩

/-- Exactly the backslashes at the start of a target are dropped. -/
theorem dropSeparators_eq_iff : dropSeparators text = target ↔ Strips text target := by
  rw [dropSeparators, ← String.toList_inj, String.toList_ofList, Text.dropWhile_eq_iff,
    forall_isSeparator_eq_false]
  simp only [isSeparator_eq_true]
  rfl

/-- The last segment is what follows the last backslash. -/
theorem lastSegment_eq_iff : lastSegment text = segment ↔ IsLastSegment text segment := by
  rw [lastSegment, ← String.toList_inj, String.toList_ofList, ← List.reverse_inj,
    List.reverse_reverse, Text.takeWhile_eq_iff]
  refine and_congr ?_ ⟨?_, ?_⟩
  · simp [isSeparator, List.forall_mem_ne']
  · rintro ⟨rest, hrest, htext⟩
    refine ⟨rest.reverse, fun c hc => ?_, by rw [← List.reverse_inj, htext]; simp⟩
    rw [List.getLast?_reverse] at hc
    simpa [isSeparator] using hrest c hc
  · rintro ⟨before, hbefore, htext⟩
    refine ⟨before.reverse, fun c hc => ?_, by rw [htext, List.reverse_append]⟩
    rw [List.head?_reverse] at hc
    simpa [isSeparator] using hbefore c hc

/-- What is left between backslashes. -/
theorem inner_eq_iff (hne : space ≠ "") :
    Text.dropEndWhile isSeparator (text.toList.dropWhile isSeparator) = space.toList ↔
      IsInner text space := by
  have hhead (run : List Char) : (space.toList ++ run).head? = space.toList.head? := by
    rw [List.head?_append, Option.or_of_isSome (List.isSome_head?.mpr (by simpa using hne))]
  simp only [Text.dropEndWhile_eq_iff, Text.dropWhile_eq_iff, hhead, forall_isSeparator_eq_false,
    isSeparator_eq_true]
  constructor
  · rintro ⟨hlast, trail, htrail, hfirst, lead, hlead, htext⟩
    exact ⟨hfirst, hlast, lead, trail, hlead, htrail, by rw [htext, List.append_assoc]⟩
  · rintro ⟨hfirst, hlast, lead, trail, hlead, htrail, htext⟩
    exact ⟨hlast, trail, htrail, hfirst, lead, hlead, by rw [htext, List.append_assoc]⟩

/-- A namespace keeps what is left between the backslashes at its ends, if anything is. -/
theorem normalizeNamespace_eq_some_iff :
    normalizeNamespace text = some space ↔ IsInner text space ∧ space ≠ "" := by
  unfold normalizeNamespace
  split
  · next hnil =>
    refine iff_of_false nofun fun ⟨hinner, hne⟩ => ?_
    rw [← inner_eq_iff hne, hnil, eq_comm, String.toList_eq_nil_iff] at hinner
    exact hne hinner
  · next cs hcs =>
    rw [Option.some_inj, ← String.toList_inj, String.toList_ofList]
    constructor
    · intro h
      have hne : space ≠ "" := by
        rintro rfl
        exact hcs h
      exact ⟨(inner_eq_iff hne).mp h, hne⟩
    · rintro ⟨hinner, hne⟩
      exact (inner_eq_iff hne).mpr hinner

/-- The global namespace is written with backslashes only, or with nothing. -/
theorem normalizeNamespace_eq_none_iff :
    normalizeNamespace text = none ↔ ∀ c ∈ text.toList, c = '\\' := by
  have hnil : normalizeNamespace text = none ↔
      Text.dropEndWhile isSeparator (text.toList.dropWhile isSeparator) = [] := by
    unfold normalizeNamespace
    split
    · next h => exact iff_of_true rfl h
    · next h => exact iff_of_false nofun h
  rw [hnil]
  constructor
  · intro h
    obtain ⟨-, trail, htrail, hdrop⟩ := Text.dropEndWhile_eq_iff.mp h
    obtain ⟨hfirst, lead, hlead, htext⟩ := Text.dropWhile_eq_iff.mp hdrop
    cases trail with
    | nil =>
      intro c hc
      rw [htext, List.append_nil, List.append_nil] at hc
      exact isSeparator_eq_true.mp (hlead c hc)
    | cons c trail =>
      have hc := htrail c List.mem_cons_self
      rw [hfirst c rfl] at hc
      cases hc
  · intro h
    have hdrop : text.toList.dropWhile isSeparator = [] :=
      Text.dropWhile_eq_iff.mpr ⟨nofun, text.toList, fun c hc => isSeparator_eq_true.mpr (h c hc),
        (List.append_nil _).symm⟩
    rw [hdrop]
    rfl

/-! ## Steps -/

/-- One step in building a scope. -/
inductive Step where
  | setNamespace (text : Option String)
  | addAlias (localName target : String)
  | addImport (target : String)
  deriving DecidableEq, Repr

namespace Step

/-- The scope after a step. -/
def apply (s : Scope) : Step → Scope
  | setNamespace text => s.setNamespace text
  | addAlias localName target => s.addAlias localName target
  | addImport target => s.addImport target

/-- The step sets the current namespace to this one, or to the global one. -/
inductive SetsNamespace : Step → Option String → Prop
  | absent : SetsNamespace (setNamespace none) none
  | blank {text : String} (h : ∀ c ∈ text.toList, c = '\\') :
      SetsNamespace (setNamespace (some text)) none
  | inner {text space : String} (h : IsInner text space) (hne : space ≠ "") :
      SetsNamespace (setNamespace (some text)) (some space)

/-- The step registers the name, in any letter case, for the target. Nothing is registered without a
name or without a target. -/
inductive Registers : Step → String → String → Prop
  | ofAlias {localName written name target : String} (hlocal : localName ≠ "")
      (hname : name.foldCase = localName.foldCase) (htarget : Strips written target)
      (hne : target ≠ "") : Registers (addAlias localName written) name target
  | ofImport {localName written name target : String} (hlocal : localName ≠ "")
      (hname : name.foldCase = localName.foldCase) (htarget : Strips written target)
      (hsegment : IsLastSegment target localName) : Registers (addImport written) name target

/-- Whether the step has an empty alias or an empty target. A target has no last segment if it ends
with a backslash. -/
def isRefused : Step → Bool
  | setNamespace _ => false
  | addAlias localName target => localName.isEmpty || target.toList.all (· == '\\')
  | addImport target => target.toList.getLast?.all (· == '\\')

end Step

/-! ## What a step does -/

namespace Step

variable {s : Scope} {localName written name : String} {step : Step}

/-- An import with an alias registers it, in any letter case, for the target without leading
backslashes. -/
theorem registers_addAlias_iff : (addAlias localName written).Registers name target ↔
    (localName ≠ "" ∧ target ≠ "") ∧ name.foldCase = localName.foldCase ∧
      dropSeparators written = target := by
  rw [dropSeparators_eq_iff]
  constructor
  · rintro ⟨hlocal, hname, htarget, hne⟩
    exact ⟨⟨hlocal, hne⟩, hname, htarget⟩
  · rintro ⟨⟨hlocal, hne⟩, hname, htarget⟩
    exact .ofAlias hlocal hname htarget hne

/-- A target is imported under its last segment. -/
theorem registers_addImport_iff : (addImport written).Registers name target ↔
    (addAlias (lastSegment (dropSeparators written)) written).Registers name target := by
  rw [registers_addAlias_iff]
  constructor
  · intro h
    cases h with
    | ofImport hlocal hname htarget hsegment =>
      obtain rfl := dropSeparators_eq_iff.mpr htarget
      obtain rfl := lastSegment_eq_iff.mpr hsegment
      refine ⟨⟨hlocal, fun hnil => hlocal ?_⟩, hname, rfl⟩
      rw [hnil]
      rfl
  · rintro ⟨⟨hlocal, -⟩, hname, rfl⟩
    exact .ofImport hlocal hname (dropSeparators_eq_iff.mp rfl) (lastSegment_eq_iff.mp rfl)

/-- After an import, a name is bound to what the import registers it for, or else to what it was
bound to. -/
theorem target?_addAlias_iff : (s.addAlias localName written).target? name = some target ↔
    (addAlias localName written).Registers name target ∨
      (∀ other, ¬ (addAlias localName written).Registers name other) ∧
        s.target? name = some target := by
  rw [target?_addAlias]
  split
  · next hempty =>
    refine iff_of_keeps (W := (addAlias localName written).Registers name) fun other h => ?_
    obtain ⟨⟨hlocal, hne⟩, -, rfl⟩ := registers_addAlias_iff.mp h
    simp [hlocal, hne] at hempty
  · next hempty =>
    have hne : localName ≠ "" ∧ dropSeparators written ≠ "" := by simpa using hempty
    split
    · next hname =>
      -- The alias is this name, so what was bound to it before is replaced.
      have hregisters : (addAlias localName written).Registers name (dropSeparators written) :=
        registers_addAlias_iff.mpr ⟨hne, hname, rfl⟩
      rw [Option.some_inj]
      constructor
      · rintro rfl
        exact .inl hregisters
      · rintro (h | ⟨hnone, -⟩)
        · exact (registers_addAlias_iff.mp h).2.2
        · exact absurd hregisters (hnone _)
    · next hname =>
      refine iff_of_keeps (W := (addAlias localName written).Registers name) fun other h => ?_
      exact hname (registers_addAlias_iff.mp h).2.1

/-- A name is bound to what the step registers it for; otherwise it stays as it was. -/
theorem target?_apply (s : Scope) (step : Step) (name target : String) :
    (step.apply s).target? name = some target ↔ step.Registers name target ∨
      (∀ other, ¬ step.Registers name other) ∧ s.target? name = some target := by
  cases step with
  | setNamespace text =>
    exact iff_of_keeps (W := (setNamespace text).Registers name) fun other => nofun
  | addAlias localName written => exact target?_addAlias_iff
  | addImport written =>
    have hregisters (other : String) : (addImport written).Registers name other ↔
        (addAlias (lastSegment (dropSeparators written)) written).Registers name other :=
      registers_addImport_iff
    simp only [hregisters]
    rw [apply, addImport_eq]
    exact target?_addAlias_iff

/-- Setting a namespace sets it in its normal form. -/
theorem setsNamespace_iff {text space : Option String} :
    (setNamespace text).SetsNamespace space ↔ text.bind normalizeNamespace = space := by
  constructor
  · rintro (_ | h | ⟨h, hne⟩)
    · rfl
    · exact normalizeNamespace_eq_none_iff.mpr h
    · exact normalizeNamespace_eq_some_iff.mpr ⟨h, hne⟩
  · rintro rfl
    cases text with
    | none => exact .absent
    | some text =>
      rw [Option.bind_some]
      cases hspace : normalizeNamespace text with
      | none => exact .blank (normalizeNamespace_eq_none_iff.mp hspace)
      | some space =>
        obtain ⟨hinner, hne⟩ := normalizeNamespace_eq_some_iff.mp hspace
        exact .inner hinner hne

/-- The current namespace is what the step sets; otherwise it stays as it was. -/
theorem current_apply (s : Scope) (step : Step) (space : Option String) :
    (step.apply s).current = space ↔ step.SetsNamespace space ∨
      (∀ other, ¬ step.SetsNamespace other) ∧ s.current = space := by
  cases step with
  | setNamespace text =>
    rw [setsNamespace_iff]
    exact ⟨.inl, fun h => h.elim id fun h' => (h'.1 _ (setsNamespace_iff.mpr rfl)).elim⟩
  | addAlias localName target =>
    rw [apply, current_addAlias]
    exact iff_of_keeps (W := (addAlias localName target).SetsNamespace) fun other => nofun
  | addImport target =>
    rw [apply, addImport_eq, current_addAlias]
    exact iff_of_keeps (W := (addImport target).SetsNamespace) fun other => nofun

/-- A step with an empty alias or an empty target changes nothing. -/
theorem apply_of_isRefused (h : step.isRefused = true) (s : Scope) : step.apply s = s := by
  cases step with
  | setNamespace text => cases h
  | addAlias localName target =>
    refine addAlias_of_empty ?_
    rw [isRefused, Bool.or_eq_true, String.isEmpty_iff, List.all_eq_true] at h
    refine h.imp_right fun htarget => dropSeparators_eq_iff.mpr ⟨nofun, target.toList, ?_, by simp⟩
    simpa using htarget
  | addImport target =>
    rw [apply, addImport_eq]
    refine addAlias_of_empty (.inl (lastSegment_eq_iff.mpr ⟨List.not_mem_nil, ?_⟩))
    refine ⟨_, fun c hc => ?_, (List.append_nil _).symm⟩
    obtain ⟨-, lead, -, htarget⟩ := dropSeparators_eq_iff.mp (rfl : dropSeparators target = _)
    have hlast : target.toList.getLast? = some c := by rw [htarget, List.getLast?_append, hc]; rfl
    simpa [isRefused, hlast] using h

/-- A step with an empty alias or an empty target registers nothing. -/
theorem not_registers_of_isRefused (h : step.isRefused = true) :
    ¬ step.Registers name target := by
  intro hregisters
  have hbound := (target?_apply .empty step name target).mpr (.inl hregisters)
  rw [apply_of_isRefused h] at hbound
  cases hbound

end Step

/-! ## Runs -/

/-- The scope after a run of steps from the empty one. -/
def build (steps : List Step) : Scope :=
  steps.foldl Step.apply .empty

/-- The namespace, the aliases and the targets are kept in their normal forms, and every alias is kept
once. -/
structure Tidy (s : Scope) : Prop where
  space : ∀ space, s.current = some space →
    space ≠ "" ∧ space.toList.head? ≠ some '\\' ∧ space.toList.getLast? ≠ some '\\'
  distinct : (s.imports.map Prod.fst).Nodup
  aliases : ∀ entry ∈ s.imports, entry.1 ≠ "" ∧ ∀ c ∈ entry.1.toList, c.isUpper = false
  targets : ∀ entry ∈ s.imports, entry.2 ≠ "" ∧ entry.2.toList.head? ≠ some '\\'

namespace Tidy

variable {s : Scope}

/-- The empty scope is tidy. -/
theorem empty : Tidy .empty where
  space _ h := nomatch h
  distinct := .nil
  aliases _ h := nomatch h
  targets _ h := nomatch h

/-- Setting a namespace keeps a scope tidy. -/
theorem setNamespace (h : s.Tidy) (text : Option String) : (s.setNamespace text).Tidy where
  space space hspace := by
    obtain ⟨written, rfl, hwritten⟩ := Option.bind_eq_some_iff.mp hspace
    obtain ⟨⟨hfirst, hlast, -⟩, hne⟩ := normalizeNamespace_eq_some_iff.mp hwritten
    exact ⟨hne, hfirst, hlast⟩
  distinct := h.distinct
  aliases := h.aliases
  targets := h.targets

/-- An import keeps a scope tidy. -/
theorem addAlias (h : s.Tidy) (localName target : String) : (s.addAlias localName target).Tidy := by
  by_cases hempty : localName = "" ∨ dropSeparators target = ""
  · rwa [addAlias_of_empty hempty]
  obtain ⟨hlocal, htarget⟩ := not_or.mp hempty
  rw [addAlias_of_ne hlocal htarget]
  refine ⟨h.space, ?_, ?_, ?_⟩
  · refine List.nodup_cons.mpr ⟨fun hmem => ?_, ?_⟩
    · obtain ⟨entry, hentry, heq⟩ := List.mem_map.mp hmem
      simpa [heq] using (List.mem_filter.mp hentry).2
    · exact h.distinct.sublist (List.filter_sublist.map Prod.fst)
  · refine List.forall_mem_cons.mpr ⟨⟨?_, fun c hc => ?_⟩, fun entry hentry => ?_⟩
    · rwa [Ne, ← String.isEmpty_iff, String.isEmpty_foldCase, String.isEmpty_iff]
    · rw [String.toList_foldCase] at hc
      obtain ⟨d, -, rfl⟩ := List.mem_map.mp hc
      exact Text.isUpper_toLower d
    · exact h.aliases entry (List.mem_filter.mp hentry).1
  · refine List.forall_mem_cons.mpr ⟨⟨htarget, ?_⟩, fun entry hentry => ?_⟩
    · exact (dropSeparators_eq_iff.mp rfl).1
    · exact h.targets entry (List.mem_filter.mp hentry).1

/-- Every step keeps a scope tidy. -/
theorem apply (h : s.Tidy) (step : Step) : (step.apply s).Tidy := by
  cases step with
  | setNamespace text => exact h.setNamespace text
  | addAlias localName target => exact h.addAlias localName target
  | addImport target =>
    rw [Step.apply, addImport_eq]
    exact h.addAlias _ target

/-- Whatever its steps, a scope is tidy in the end. -/
theorem build (steps : List Step) : (build steps).Tidy := by
  suffices ∀ s : Scope, s.Tidy → (steps.foldl Step.apply s).Tidy from this _ .empty
  induction steps with
  | nil => exact fun _ h => h
  | cons step rest ih => exact fun s h => ih _ (h.apply step)

end Tidy

/-- The scope is what the steps say. -/
structure Reflects (s : Scope) (steps : List Step) : Prop extends Tidy s where
  current_iff : ∀ space, s.current = space ↔ LastSet Step.SetsNamespace steps space ∨
    (∀ step ∈ steps, ∀ other, ¬ step.SetsNamespace other) ∧ space = none
  target?_iff : ∀ name target, s.target? name = some target ↔
    LastSet (fun step => step.Registers name) steps target

/-- **A scope reflects the steps that built it.** -/
theorem build_reflects (steps : List Step) : (build steps).Reflects steps where
  toTidy := .build steps
  current_iff space := by
    have hrun := foldl_iff_lastSet (P := fun s space => s.current = space) Step.current_apply steps
      Scope.empty space
    rwa [eq_comm (a := space)]
  target?_iff name target := by
    have hrun := foldl_iff_lastSet (P := fun s target => s.target? name = some target)
      (fun s step => Step.target?_apply s step name) steps Scope.empty target
    exact hrun.trans (or_iff_left fun h => nomatch h.2)

/-! ## Letter case -/

/-- The steps agree up to the letter case of namespaces, aliases and targets. -/
inductive Step.SameCase : Step → Step → Prop
  | setNamespace {text text' : Option String}
      (htext : text.map String.foldCase = text'.map String.foldCase) :
      SameCase (setNamespace text) (setNamespace text')
  | addAlias {localName localName' target target' : String}
      (hlocal : localName.foldCase = localName'.foldCase)
      (htarget : target.foldCase = target'.foldCase) :
      SameCase (addAlias localName target) (addAlias localName' target')
  | addImport {target target' : String} (htarget : target.foldCase = target'.foldCase) :
      SameCase (addImport target) (addImport target')

namespace SameCase

variable {s t : Scope} {steps steps' : List Step}

/-- A step in different letter case leaves scopes that agree up to letter case. -/
theorem apply (h : s.SameCase t) {step step' : Step} (hstep : step.SameCase step') :
    (step.apply s).SameCase (step'.apply t) := by
  cases hstep with
  | setNamespace htext => exact h.setNamespace htext
  | addAlias hlocal htarget => exact h.addAlias hlocal htarget
  | addImport htarget => exact h.addImport htarget

/-- **Steps in different letter case build scopes that agree up to letter case.** -/
theorem build (hsteps : List.Forall₂ Step.SameCase steps steps') :
    (build steps).SameCase (build steps') := by
  suffices ∀ s t : Scope, s.SameCase t →
      (steps.foldl Step.apply s).SameCase (steps'.foldl Step.apply t) from this _ _ (.refl _)
  induction hsteps with
  | nil => exact fun _ _ h => h
  | cons hstep _ ih => exact fun s t h => ih _ _ (h.apply hstep)

end SameCase

end Scope

end PhpTypes
