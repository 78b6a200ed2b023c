import PhpTypes.Files.Path

/-!
# Paths

The path of an entry has the parts of the path of its directory and then the name of the entry
(`partsOf_child`).

Paths are compared component by component. This is a total order on lists of components, and hence
a total preorder on paths: two spellings of a path, such as `a/b` and `a//b`, compare equal. A list
that is sorted by path therefore does not depend on its order before, as long as no two of its
members differ and still compare equal (`mergeSort_inOrder_of_perm`).
-/

namespace PhpTypes.Files

/-! ## Paths of entries -/

/-- Whether a text can be the name of an entry. -/
def IsName (name : String) : Prop :=
  name ≠ "" ∧ name ≠ "." ∧ name ≠ ".." ∧ '/' ∉ name.toList

instance : DecidablePred IsName :=
  fun _ => inferInstanceAs (Decidable (_ ∧ _))

/-- The parts of a path, which may be empty. -/
def partsOf (path : String) : List String :=
  (path.toList.splitOn '/').map String.ofList

/-- The name of an entry is one more part behind those of its directory, or stands in place of the
empty part behind a slash at the end. -/
theorem partsOf_child {name : String} (hname : IsName name) (path : String) :
    partsOf (child path name) = partsOf path ++ [name] ∨
      ∃ lead, partsOf path = lead ++ [""] ∧ partsOf (child path name) = lead ++ [name] := by
  have hsplit : name.toList.splitOn '/' = [name.toList] := List.splitOn_eq_singleton hname.2.2.2
  by_cases hslash : path.toList.getLast? = some '/'
  · obtain ⟨lead, hlead⟩ := List.getLast?_eq_some_iff.mp hslash
    refine .inr ⟨(lead.splitOn '/').map String.ofList, ?_, ?_⟩
    · rw [partsOf, hlead, List.splitOn_append_cons_self, List.map_append, List.splitOn_nil]
      rfl
    · rw [partsOf, child, if_pos (beq_iff_eq.mpr hslash), String.toList_append, hlead,
        List.append_assoc, List.singleton_append, List.splitOn_append_cons_self, hsplit,
        List.map_append, List.map_singleton, String.ofList_toList]
  · refine .inl ?_
    rw [partsOf, child, if_neg (by simpa using hslash), String.toList_append, String.toList_append,
      List.append_assoc]
    show (List.splitOn '/' (path.toList ++ '/' :: name.toList)).map String.ofList = _
    rw [List.splitOn_append_cons_self, hsplit, List.map_append, List.map_singleton,
      String.ofList_toList]
    rfl

/-- The path of an entry starts with the path of its directory. -/
theorem child_eq_append (path name : String) : ∃ rest, child path name = path ++ rest := by
  rw [child]
  split
  · exact ⟨name, rfl⟩
  · exact ⟨"/" ++ name, String.append_assoc⟩

/-- An entry of a directory that has a path has one as well. -/
theorem child_ne_empty {path : String} (hpath : path ≠ "") (name : String) :
    child path name ≠ "" := by
  obtain ⟨rest, hchild⟩ := child_eq_append path name
  rw [hchild]
  exact fun h => hpath (String.append_eq_empty_iff.mp h).1

/-- An entry has an absolute path exactly if its directory has one. -/
theorem isAbsolute_child {path : String} (hpath : path ≠ "") (name : String) :
    isAbsolute (child path name) = isAbsolute path := by
  obtain ⟨rest, hchild⟩ := child_eq_append path name
  rw [hchild, isAbsolute, isAbsolute, String.toList_append]
  cases hlist : path.toList with
  | nil => exact absurd (String.toList_eq_nil_iff.mp hlist) hpath
  | cons c chars => rfl

/-! ## The order of paths -/

namespace Component

/-- The text of a name; the other components have none. -/
def text : Component → String
  | named name => name
  | _ => ""

/-- Components are compared by rank; among names the text decides. -/
theorem compare_eq_compareLex : compare = compareLex (compareOn rank) (compareOn text) := by
  funext a b
  cases a <;> cases b <;> rfl

instance : Std.TransCmp compare :=
  compare_eq_compareLex ▸ inferInstance

end Component

/-- Paths are compared lexicographically by their components. -/
theorem comparePaths_go_eq : comparePaths.go = List.compareLex Component.compare := by
  funext xs ys
  induction xs, ys using comparePaths.go.induct with
  | case1 => rfl
  | case2 => rfl
  | case3 => rfl
  | case4 x xs y ys ih => rw [comparePaths.go, List.compareLex_cons_cons, ih]

instance : Std.TransCmp comparePaths.go :=
  comparePaths_go_eq ▸ inferInstance

instance : Std.TransCmp comparePaths where
  eq_swap {a b} := by
    rw [comparePaths, comparePaths]
    exact Std.OrientedCmp.eq_swap
  isLE_trans {a b c} hab hbc := by
    rw [comparePaths] at *
    exact Std.TransCmp.isLE_trans hab hbc

section Sorting

variable {α : Type} {a b : String × α}

/-- Whether a member of a list that is sorted by path may stand in front of another. -/
def inOrder (a b : String × α) : Bool :=
  comparePaths a.1 b.1 != .gt

/-- Members are in order if the path of the first is not the greater one. -/
theorem inOrder_iff : inOrder a b ↔ (comparePaths a.1 b.1).isLE := by
  rw [inOrder, bne_iff_ne, Ordering.isLE_iff_ne_gt]

/-- The order of members is transitive. -/
theorem inOrder_trans (a b c : String × α) (hab : inOrder a b) (hbc : inOrder b c) :
    inOrder a c := by
  rw [inOrder_iff] at hab hbc ⊢
  exact Std.TransCmp.isLE_trans hab hbc

/-- Of two members, one may stand in front of the other. -/
theorem inOrder_total (a b : String × α) : (inOrder a b || inOrder b a) = true := by
  have hswap : comparePaths b.1 a.1 = (comparePaths a.1 b.1).swap := Std.OrientedCmp.eq_swap
  rw [Bool.or_eq_true, inOrder_iff, inOrder_iff, hswap]
  cases comparePaths a.1 b.1 <;> decide

/-- Members that may stand in either order have paths that compare equal. -/
theorem comparePaths_eq_of_inOrder (hab : inOrder a b) (hba : inOrder b a) :
    comparePaths a.1 b.1 = .eq :=
  Std.OrientedCmp.isLE_antisymm (inOrder_iff.mp hab) (inOrder_iff.mp hba)

/-- Sorting by path undoes every change of order, unless different members compare equal. -/
theorem mergeSort_inOrder_of_perm {xs ys : List (String × α)} (hperm : xs.Perm ys)
    (heq : ∀ a ∈ ys, ∀ b ∈ ys, comparePaths a.1 b.1 = .eq → a = b) :
    xs.mergeSort inOrder = ys.mergeSort inOrder := by
  have hsorted (zs : List (String × α)) : (zs.mergeSort inOrder).Pairwise (inOrder · ·) :=
    List.pairwise_mergeSort inOrder_trans inOrder_total zs
  have hsame : (xs.mergeSort inOrder).Perm (ys.mergeSort inOrder) :=
    ((List.mergeSort_perm xs inOrder).trans hperm).trans (List.mergeSort_perm ys inOrder).symm
  refine List.Perm.eq_of_pairwise (fun a b ha hb hab hba => ?_) (hsorted xs) (hsorted ys) hsame
  have ha' : a ∈ ys := hperm.subset (List.mem_mergeSort.mp ha)
  exact heq a ha' b (List.mem_mergeSort.mp hb) (comparePaths_eq_of_inOrder hab hba)

end Sorting

end PhpTypes.Files
