import PhpTypes.Proofs.Session.RoundTrip
import PhpTypes.Proofs.Signature.Requests
import PhpTypes.Proofs.TypeExpr.LostBlank

/-!
# Classes that annotations add

Whatever texts are read, if the namespaces and imports are class names without blanks, then every
class that reading adds has a name, which is no word of the vocabulary and does not start with a
backslash. It is a class name, with one exception: a digit that is bared when blanks are lost behind
the word `namespace` (`Request.runAll_classNames`). The exception does occur
(`Request.not_runAll_allClassNames`).
-/

namespace PhpTypes

open TypeExpr (isClassName peelTrimmed IsSpelled)

namespace Annotation

/-- The class that the annotation adds gets this name, from which a digit has been bared. -/
def BaresDigit (a : Annotation) (name : String) : Prop :=
  ∃ core, (peelTrimmed (Text.trim a.text.toList)).1 = some core ∧ isClassName core = true ∧
    TypeExpr.BaresDigit a.scope a.fullyQualified (.ofList core) ∧
    (resolveName a.scope (.ofList core) a.fullyQualified).toText = name

/-- What reading an annotation adds keeps to class names, unless it bares a digit. -/
theorem resolve_classNames {a : Annotation} {P : String → Prop} {r : Registry}
    (hscope : ∀ s ∈ a.scope, s.AllTexts fun text => IsSpelled text.toList) (h : r.AllNames P)
    (hP : ∀ name, name ≠ "" → name.toList.head? ≠ some '\\' → Keyword.lookup? name = none →
      isClassName name.toList = true ∨ a.BaresDigit name → P name) :
    (TypeExpr.resolve a.scope a.fullyQualified a.text r).2.AllNames P := by
  refine TypeExpr.resolve_allNames h fun core hcore hclass hprimitive => ?_
  have htrim : Text.trim core = core := TypeExpr.trim_of_peelTrimmed (Text.trim_trim _) hcore
  have hclass' : isClassName (String.ofList core).toList = true := by rwa [String.toList_ofList]
  have htrim' : Text.trim (String.ofList core).toList = (String.ofList core).toList := by
    rwa [String.toList_ofList]
  refine hP _ (TypeExpr.toText_resolveName_ne_empty hclass' htrim' hscope)
    (head?_toText_resolveName a.scope _ a.fullyQualified)
    (QualifiedName.lookup?_toText_eq_none_iff.mpr hprimitive) ?_
  by_cases hbares : TypeExpr.BaresDigit a.scope a.fullyQualified (.ofList core)
  · exact .inr ⟨core, hcore, hclass, hbares, rfl⟩
  · exact .inl ((TypeExpr.isClassName_resolveName_iff hclass' htrim' hscope).mpr hbares)

end Annotation

namespace Request

/-- The scope in which the request reads. -/
def scope? : Request → Option Scope
  | resolve scope _ _ => scope
  | resolveAll scope _ _ => scope
  | resolveText scope _ => scope
  | _ => none

theorem scope_of_mem_annotations {q : Request} {a : Annotation} (ha : a ∈ q.annotations) :
    a.scope = q.scope? := by
  cases q with
  | resolve scope fullyQualified text =>
    rw [List.mem_singleton.mp ha]
    rfl
  | resolveAll scope fullyQualified texts =>
    obtain ⟨text, -, rfl⟩ := List.mem_map.mp ha
    rfl
  | resolveText scope text =>
    obtain ⟨alternative, -, rfl⟩ := List.mem_map.mp ha
    rfl
  | _ => exact absurd ha List.not_mem_nil

/-- What every request keeps of the names is kept by requests one after the other. -/
theorem runAll_allNames {P : String → Prop} {qs : List Request} {r : Registry} (h : r.AllNames P)
    (hstep : ∀ q ∈ qs, ∀ r : Registry, r.AllNames P → (q.run r).2.AllNames P) :
    (runAll qs r).2.AllNames P := by
  induction qs generalizing r with
  | nil => exact h
  | cons q rest ih =>
    rw [runAll]
    exact ih (hstep q List.mem_cons_self r h)
      fun other hother => hstep other (List.mem_cons_of_mem q hother)

/-- **Every class that requests read has a name, and all but a bared one have class names.** -/
theorem runAll_classNames {qs : List Request}
    (hqs : ∀ q ∈ qs, ∀ text allowNull, q ≠ .nominal text allowNull)
    (hscopes : ∀ q ∈ qs, ∀ s ∈ q.scope?, s.AllTexts fun text => IsSpelled text.toList) :
    (runAll qs .empty).2.AllNames fun name =>
      name ≠ "" ∧ name.toList.head? ≠ some '\\' ∧ Keyword.lookup? name = none ∧
        (isClassName name.toList = true ∨
          ∃ q ∈ qs, ∃ a ∈ q.annotations, a.BaresDigit name) := by
  refine runAll_allNames .empty fun q hq r hr => run_allNames (hqs q hq) (fun a ha r hr => ?_) hr
  have hscope := hscopes q hq
  rw [← scope_of_mem_annotations ha] at hscope
  refine Annotation.resolve_classNames hscope hr fun name hne hhead hword hname => ?_
  exact ⟨hne, hhead, hword, hname.imp_right fun hbares => ⟨q, hq, a, ha, hbares⟩⟩

/-- In a namespace no digit is bared, and the import of a word names no class. -/
theorem runAll_classNames_of_namespace :
    (runAll [.resolveText (some ((Scope.ofNamespace (some "App")).addAlias "Num" "int"))
        "Num|namespace\\\u00a01x|(Foo[]|1y)"] .empty).2.AllNames fun name =>
      isClassName name.toList = true ∧ Keyword.lookup? name = none := by
  intro slot name hd
  have hcurrent : ∀ text ∈ (Scope.ofNamespace (some "App")).current, IsSpelled text.toList := by
    decide
  have hscope : ((Scope.ofNamespace (some "App")).addAlias "Num" "int").AllTexts
      fun text => IsSpelled text.toList := ⟨hcurrent, by decide⟩
  obtain ⟨-, -, hword, hname⟩ := @runAll_classNames [.resolveText (some _) _]
    (List.forall_mem_singleton.mpr fun text allowNull h => nomatch h)
    (List.forall_mem_singleton.mpr fun s hs => Option.some.inj hs ▸ hscope) slot name hd
  refine ⟨hname.resolve_right ?_, hword⟩
  rintro ⟨q, hq, a, ha, core, -, -, ⟨-, -, next, rest, ⟨s, first, hs, hnone, -⟩, -⟩, -⟩
  rw [scope_of_mem_annotations ha, List.mem_singleton.mp hq] at hs
  rw [← Option.some.inj hs] at hnone
  cases hnone

/-- Reading may add a class whose name is no class name. -/
theorem not_runAll_allClassNames :
    ¬ ∀ qs : List Request,
        (∀ q ∈ qs, ∃ scope fullyQualified text, q = .resolve scope fullyQualified text ∧
          ∀ s ∈ scope, s.AllTexts fun text => IsSpelled text.toList) →
        (runAll qs .empty).2.AllNames fun name => isClassName name.toList = true := by
  intro h
  have hscope : Scope.empty.AllTexts fun text => IsSpelled text.toList :=
    ⟨fun _ htext => (nomatch htext), fun _ hentry => (nomatch hentry)⟩
  have hnames := h [.resolve (some .empty) false "namespace\\\u00a01x"] <|
    List.forall_mem_singleton.mpr ⟨_, _, _, rfl, fun s hs => Option.some.inj hs ▸ hscope⟩
  have hrun : (runAll [.resolve (some .empty) false "namespace\\\u00a01x"] .empty).2 =
      Registry.empty.push (.classNamed "1x") :=
    congrArg Context.registry Context.misread_eq
  rw [hrun] at hnames
  have hclass := hnames 0 "1x" (by rw [Context.descriptor?_push_empty, if_pos rfl])
  exact absurd hclass (by decide)

end Request

end PhpTypes
