import Mathlib.Data.List.DropRight
import PhpTypes.Php.Imports
import PhpTypes.Proofs.Name.Imports

/-!
# Imports one by one

A statement `use` in any of its forms is short for statements that import one name each: the members
of a group have the name of the group in front, and an item without alias is bound to its last
segment (`ImportList.expand`). Writing these statements instead leads to the same scope, and of the
names that they import only those of classes count (`registerAll_expand`).
-/

namespace PhpTypes

/-! ## Last segments -/

namespace Scope

/-- The last segment is not changed by what stands in front of a backslash. -/
theorem lastSegment_append {before : String}
    (h : ∀ c, before.toList.getLast? = some c → c = '\\') (text : String) :
    lastSegment (before ++ text) = lastSegment text := by
  obtain ⟨hplain, front, hfront, htext⟩ := lastSegment_eq_iff.mp (Eq.refl (lastSegment text))
  refine lastSegment_eq_iff.mpr ⟨hplain, before.toList ++ front, fun c hc => ?_, ?_⟩
  · cases front with
    | nil => exact h c (by rwa [List.append_nil] at hc)
    | cons d rest =>
      rw [List.getLast?_append_of_ne_nil _ (List.cons_ne_nil d rest)] at hc
      exact hfront c hc
  · rw [String.toList_append, htext, List.append_assoc]

/-- The last segment does not change when backslashes in front are dropped. -/
theorem lastSegment_dropSeparators (text : String) :
    lastSegment (dropSeparators text) = lastSegment text := by
  obtain ⟨-, lead, hlead, htext⟩ := dropSeparators_eq_iff.mp (Eq.refl (dropSeparators text))
  have heq : text = .ofList lead ++ dropSeparators text := by
    rw [← String.toList_inj, String.toList_append, String.toList_ofList, htext]
  conv_rhs => rw [heq]
  refine (lastSegment_append (fun c hc => hlead c ?_) _).symm
  rw [String.toList_ofList] at hc
  exact List.mem_of_getLast? hc

end Scope

namespace Php

open Scope (Step)

/-! ## Statements that import one name -/

/-- The import of one name under another, as in `use Target as Alias;`. -/
structure SingleImport where
  /-- What the import is about, if not about a class. -/
  kind : Option ImportKind
  target : String
  localName : String
  deriving DecidableEq, Repr

namespace SingleImport

/-- Whether the import is about a class. -/
def isClass (i : SingleImport) : Bool :=
  i.kind.isNone

/-- The statement with this import only. -/
def statement (i : SingleImport) : ImportList :=
  match i.kind with
  | none => .plain [⟨i.target, some i.localName⟩]
  | some kind => .typed kind [⟨i.target, some i.localName⟩]

/-- The step that binds the name. -/
def step (i : SingleImport) : Step :=
  .addAlias i.localName i.target

end SingleImport

/-- The name that an item is bound to: its alias or its last segment. -/
def ImportItem.boundName (item : ImportItem) : String :=
  item.localName.getD (.ofList (item.name.toList.rtakeWhile (· != '\\')))

/-- The name of a member behind the name of its group. -/
def inGroup (lead name : String) : String :=
  .ofList (lead.toList.rdropWhile (· == '\\')) ++ "\\" ++ name

/-- The imports of one name each that a statement is short for. -/
def ImportList.expand : ImportList → List SingleImport
  | .plain items => items.map fun item => ⟨none, item.name, item.boundName⟩
  | .typed kind items => items.map fun item => ⟨some kind, item.name, item.boundName⟩
  | .typedGroup kind lead items =>
    items.map fun item => ⟨some kind, inGroup lead item.name, item.boundName⟩
  | .mixedGroup lead items =>
    items.map fun (kind, item) => ⟨kind, inGroup lead item.name, item.boundName⟩

/-- The steps of the imports of classes. -/
def ImportList.steps (list : ImportList) : List Step :=
  (list.expand.filter SingleImport.isClass).map SingleImport.step

/-- Adds the imports of statements to a scope, one statement after the other. -/
def registerAll (lists : List ImportList) (s : Scope) : Scope :=
  lists.foldl (fun s list => list.register s) s

variable {lists : List ImportList} {list : ImportList} {s : Scope}

/-- A statement with one import is short for itself. -/
theorem SingleImport.expand_statement (i : SingleImport) : i.statement.expand = [i] := by
  obtain ⟨kind, target, localName⟩ := i
  cases kind <;> rfl

/-! ## One statement -/

/-- A member of a group has the name of the group in front. -/
theorem groupTarget_eq (lead name : String) : groupTarget lead name = inGroup lead name :=
  rfl

/-- The name of a group does not change the last segment of its member. -/
theorem lastSegment_groupTarget (lead name : String) :
    Scope.lastSegment (groupTarget lead name) = Scope.lastSegment name := by
  refine Scope.lastSegment_append (fun c hc => ?_) name
  rw [String.toList_append, List.getLast?_append_of_ne_nil _ (by decide)] at hc
  exact (Option.some.inj hc).symm

/-- Without an alias, an item is bound to the last segment of its target, which is its own. -/
theorem registerImport_eq {item : ImportItem} {target : String}
    (h : Scope.lastSegment target = Scope.lastSegment item.name) (s : Scope) :
    registerImport s target item.localName = s.addAlias item.boundName target := by
  obtain ⟨name, _ | localName⟩ := item
  · rw [registerImport, Scope.addImport_eq, Scope.lastSegment_dropSeparators, h]
    rfl
  · rfl

/-- The imports of classes, one after the other; the others are passed over. -/
theorem foldl_steps (list : ImportList) (s : Scope) : list.steps.foldl Step.apply s =
    list.expand.foldl (fun s i => if i.isClass then i.step.apply s else s) s := by
  rw [ImportList.steps, List.foldl_map, List.foldl_filter]

/-- A statement does what the imports of classes do that it is short for. -/
theorem ImportList.register_eq (list : ImportList) (s : Scope) :
    list.register s = list.steps.foldl Step.apply s := by
  rw [foldl_steps]
  cases list with
  | plain items =>
    rw [expand, List.foldl_map]
    exact List.foldl_ext _ _ _ fun s item _ => registerImport_eq rfl s
  | typed kind items =>
    rw [expand, List.foldl_map]
    exact (List.foldl_fixed' (fun _ => rfl) items).symm
  | typedGroup kind lead items =>
    rw [expand, List.foldl_map]
    exact (List.foldl_fixed' (fun _ => rfl) items).symm
  | mixedGroup lead items =>
    rw [expand, List.foldl_map]
    refine List.foldl_ext _ _ _ fun s (kind, item) _ => ?_
    cases kind with
    | some kind => rfl
    | none =>
      have hitem : registerImport s (groupTarget lead item.name) item.localName =
          s.addAlias item.boundName (inGroup lead item.name) := by
        rw [← groupTarget_eq]
        exact registerImport_eq (lastSegment_groupTarget lead item.name) s
      exact hitem

/-! ## Runs of statements -/

/-- Statements may be added in two goes. -/
theorem registerAll_append (before after : List ImportList) (s : Scope) :
    registerAll (before ++ after) s = registerAll after (registerAll before s) :=
  List.foldl_append

/-- Adding statements is taking the steps of all of them in order. -/
theorem registerAll_eq (lists : List ImportList) (s : Scope) :
    registerAll lists s = (lists.flatMap ImportList.steps).foldl Step.apply s := by
  rw [registerAll, List.foldl_flatMap]
  exact List.foldl_ext _ _ _ fun s list _ => list.register_eq s

/-- The steps of statements are those of the class imports among what they are short for. -/
theorem flatMap_steps (lists : List ImportList) : lists.flatMap ImportList.steps =
    ((lists.flatMap ImportList.expand).filter SingleImport.isClass).map SingleImport.step := by
  rw [List.filter_flatMap, List.map_flatMap]
  rfl

/-- **Statements and the statements that they are short for lead to the same scope.** Only the
imports of classes count, and a name is bound, in any letter case, to the target of the last one
that registers it. -/
theorem registerAll_expand (lists : List ImportList) (s : Scope) :
    let singles := lists.flatMap ImportList.expand
    let steps := (singles.filter SingleImport.isClass).map SingleImport.step
    registerAll lists s = registerAll (singles.map SingleImport.statement) s ∧
      registerAll lists s = steps.foldl Step.apply s ∧
      ∀ name target, (registerAll lists s).target? name = some target ↔
        LastSet (fun step => step.Registers name) steps target ∨
          (∀ step ∈ steps, ∀ other, ¬ step.Registers name other) ∧
            s.target? name = some target := by
  intro singles steps
  have hsteps (lists : List ImportList) (hsingles : lists.flatMap ImportList.expand = singles) :
      registerAll lists s = steps.foldl Step.apply s := by
    rw [registerAll_eq, flatMap_steps, hsingles]
  have hexpand : (singles.map SingleImport.statement).flatMap ImportList.expand = singles := by
    rw [List.flatMap_map, List.flatMap_congr fun i _ => i.expand_statement, List.flatMap_singleton']
  refine ⟨?_, hsteps lists rfl, fun name target => ?_⟩
  · rw [hsteps lists rfl, hsteps _ hexpand]
  · rw [hsteps lists rfl]
    exact foldl_iff_lastSet (P := fun s target => s.target? name = some target)
      (fun s step => Step.target?_apply s step name) steps s target

/-- A group whose name is written with its backslash, and two members of which one is a function. -/
example : (ImportList.mixedGroup "A\\"
      [(none, ⟨"B\\C", none⟩), (some .function, ⟨"f", none⟩)]).expand =
    [⟨none, "A\\B\\C", "C"⟩, ⟨some .function, "A\\f", "f"⟩] := by decide

end Php

end PhpTypes
