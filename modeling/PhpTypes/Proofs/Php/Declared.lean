import Mathlib.Data.List.Forall2
import PhpTypes.Proofs.Php.Imports
import PhpTypes.Proofs.Php.Sites

/-!
# The scopes of declared routines

What is in effect at a site can be read off its surroundings: the namespace is that of the innermost
statement `namespace` around it, and the imports are those of the statements `use` in front of it,
in its own list and in the lists around it up to that namespace (`Site.uses`). The declared routines
of a program are reported in the order of the text, each once and with what is in effect at its site
(`declaredIn_reports`).
-/

namespace PhpTypes.Php

open Scope (Step)

/-! ## Surroundings -/

/-- The imports of a statement `use`. -/
def Statement.imports? : Statement → Option ImportList
  | .imports list => some list
  | _ => none

/-- The name of the innermost namespace. -/
def spaceName : List Level → Option String
  | [] => none
  | ⟨.space name, _⟩ :: _ => name
  | _ :: outer => spaceName outer

/-- The statements `use` in front of the open bodies, up to the innermost namespace. -/
def usesAround : List Level → List ImportList
  | [] => []
  | ⟨.space _, _⟩ :: _ => []
  | ⟨_, before⟩ :: outer => usesAround outer ++ before.filterMap Statement.imports?

/-- The scope behind the statements `before` of a list within these levels. -/
def scopeAt (levels : List Level) (before : List Statement) : Scope :=
  registerAll (usesAround levels ++ before.filterMap Statement.imports?)
    (.ofNamespace (spaceName levels))

namespace Site

/-- The statements `use` that are in effect at the site. -/
def uses (site : Site) : List ImportList :=
  usesAround site.levels ++ site.before.filterMap Statement.imports?

/-- The routine that is declared at the site. -/
def declared (site : Site) : Declared :=
  ⟨site.head, site.className, scopeAt site.levels site.before⟩

/-- The routine is the one that is declared at the site, with what is in effect there: the namespace
around it, and the table that the statements `use` make up. A name is bound in the table to the
target of the last import of a class that registers it. -/
structure Reports (site : Site) (d : Declared) : Prop where
  head_eq : d.head = site.head
  className_eq : d.className = site.className
  scope_eq : d.scope = registerAll site.uses (.ofNamespace (spaceName site.levels))
  current_iff : ∀ space, d.scope.current = space ↔
    (Step.setNamespace (spaceName site.levels)).SetsNamespace space
  target?_iff : ∀ name target, d.scope.target? name = some target ↔
    LastSet (fun step => step.Registers name) (site.uses.flatMap ImportList.steps) target

end Site

/-! ## The walk keeps the scope -/

variable {levels : List Level} {before : List Statement}

/-- A statement `use` is in effect behind it. -/
theorem scopeAt_append_imports (levels : List Level) (before : List Statement) (list : ImportList) :
    scopeAt levels (before ++ [.imports list]) = list.register (scopeAt levels before) := by
  rw [scopeAt, List.filterMap_append, ← List.append_assoc, registerAll_append]
  rfl

/-- A statement that imports nothing leaves the scope behind it as it is. -/
theorem scopeAt_append_of_imports?_eq_none {s : Statement} (h : s.imports? = none)
    (levels : List Level) (before : List Statement) :
    scopeAt levels (before ++ [s]) = scopeAt levels before := by
  rw [scopeAt, List.filterMap_append, List.filterMap_cons_none h, List.filterMap_nil,
    List.append_nil, scopeAt]

/-- A namespace starts with a scope of its own. -/
theorem scopeAt_space (name : Option String) :
    scopeAt (⟨.space name, before⟩ :: levels) [] = .ofNamespace name :=
  rfl

/-- A block starts with the scope of its surroundings. -/
theorem scopeAt_block : scopeAt (⟨.block, before⟩ :: levels) [] = scopeAt levels before := by
  rw [scopeAt, List.filterMap_nil, List.append_nil]
  rfl

/-- The walk reports the methods of a class one by one. -/
theorem map_declared_memberSites (levels : List Level) (before : List Statement)
    (className : String) (i : Nat) (members : List Member) :
    (memberSites Opener.isSearched levels before className i members).map Site.declared =
      members.filterMap (Member.declared? className (scopeAt levels before)) := by
  induction members generalizing i with
  | nil => rfl
  | cons member rest ih =>
    rw [memberSites, List.map_append, ih]
    cases member <;> rfl

/-- What follows a statement is declared in the scope behind it. -/
theorem declaredIn_cons (levels : List Level) (before : List Statement) (s : Statement)
    (rest : List Statement) : declaredIn (scopeAt levels before) (s :: rest) =
      s.declared (scopeAt levels before) ++ declaredIn (scopeAt levels (before ++ [s])) rest := by
  cases s with
  | imports list => rw [declaredIn, scopeAt_append_imports]
  | _ =>
    rw [declaredIn, scopeAt_append_of_imports?_eq_none rfl]
    nofun

mutual

/-- The walk reports what is declared at the searched sites of a statement, in the scope there. -/
theorem Statement.declared_eq (levels : List Level) (before : List Statement) : ∀ s : Statement,
    s.declared (scopeAt levels before) =
      (s.sites Opener.isSearched levels before).map Site.declared
  | .imports _ => rfl
  | .space name body => by
    rw [Statement.declared, ← scopeAt_space name, declaredIn_eq _ _ body]
    rfl
  | .block body => by
    rw [Statement.declared, ← scopeAt_block, declaredIn_eq _ _ body]
    rfl
  | .function _ _ => rfl
  | .classLike _ name members => (map_declared_memberSites levels before name 0 members).symm
  | .compound _ _ => rfl
  | .other => rfl

/-- The declared routines are those of the searched sites, each with the scope of its site. -/
theorem declaredIn_eq (levels : List Level) (before : List Statement) : ∀ rest : List Statement,
    declaredIn (scopeAt levels before) rest =
      (sitesFrom Opener.isSearched levels before rest).map Site.declared
  | [] => rfl
  | s :: rest => by
    rw [declaredIn_cons, s.declared_eq levels before, declaredIn_eq levels _ rest, sitesFrom,
      List.map_append]

end

/-! ## What is in effect at a site -/

/-- Imports set no namespace. -/
theorem not_setsNamespace_of_mem_steps {lists : List ImportList} {step : Step}
    (h : step ∈ lists.flatMap ImportList.steps) (space : Option String) :
    ¬ step.SetsNamespace space := by
  rw [flatMap_steps] at h
  obtain ⟨single, -, rfl⟩ := List.mem_map.mp h
  exact fun hsets => nomatch hsets

/-- The scope of a site is built in a run that first sets the namespace. -/
theorem scopeAt_eq_build (site : Site) : scopeAt site.levels site.before =
    .build (.setNamespace (spaceName site.levels) :: site.uses.flatMap ImportList.steps) := by
  rw [scopeAt, registerAll_eq]
  rfl

/-- What is declared at a site is reported with what is in effect there. -/
theorem Site.reports_declared (site : Site) : site.Reports site.declared := by
  obtain ⟨-, hcurrent, htarget⟩ := Scope.build_reflects
    (.setNamespace (spaceName site.levels) :: site.uses.flatMap ImportList.steps)
  rw [← scopeAt_eq_build] at hcurrent htarget
  refine ⟨rfl, rfl, rfl, fun space => (hcurrent space).trans ?_, fun name target => ?_⟩
  · -- No import sets a namespace, so the first step is the last one that does.
    have hnone : ∀ step ∈ site.uses.flatMap ImportList.steps, ∀ other, ¬ step.SetsNamespace other :=
      fun _ hstep => not_setsNamespace_of_mem_steps hstep
    rw [lastSet_cons]
    constructor
    · rintro ((⟨before, step, after, heq, hsets, -⟩ | ⟨-, hsets⟩) | ⟨hkeeps, -⟩)
      · have hmem : step ∈ site.uses.flatMap ImportList.steps := by simp [heq]
        exact absurd hsets (hnone step hmem _)
      · exact hsets
      · exact absurd (Step.setsNamespace_iff.mpr rfl) (hkeeps _ List.mem_cons_self _)
    · exact fun hsets => .inl (.inr ⟨hnone, hsets⟩)
  · refine (htarget name target).trans (lastSet_cons.trans (or_iff_left ?_))
    exact fun hsets => nomatch hsets.2

/-- **Every routine is reported once, in the order of the text, with what is in effect where it is
declared.** Reported are the routines at searched sites. -/
theorem declaredIn_reports (program : List Statement) : ∃ sites : List Site,
    sites.Pairwise (·.place < ·.place) ∧
      (∀ site, site ∈ sites ↔ site.In program ∧ site.Searched) ∧
      List.Forall₂ Site.Reports sites (declaredIn .empty program) := by
  have heq : declaredIn .empty program =
      (sitesFrom Opener.isSearched [] [] program).map Site.declared := declaredIn_eq [] [] program
  refine ⟨_, pairwise_sitesFrom _ program, fun site => mem_sitesFrom_iff, ?_⟩
  rw [heq, List.forall₂_map_right_iff, List.forall₂_same]
  exact fun site _ => site.reports_declared

end PhpTypes.Php
