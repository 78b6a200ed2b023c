/-!
# Sets of slots

A slot is the number of an entry of a registry. A mask refers to a handful of slots, however many
the registry holds, so a set of slots is kept as the strictly ascending list of its members. Sets
with the same members are therefore equal.
-/

namespace PhpTypes

/-! ## Merging ascending lists -/

/-- The members of two ascending lists in ascending order, each once. -/
def mergeAscending : List Nat → List Nat → List Nat
  | [], ys => ys
  | x :: xs, ys => ys.takeWhile (· < x) ++ x :: mergeAscending xs (ys.dropWhile (· ≤ x))

/-- A member that a test rejects is never dropped. -/
theorem mem_dropWhile_of_not {p : Nat → Bool} {n : Nat} {ys : List Nat} (h : n ∈ ys)
    (hp : p n = false) : n ∈ ys.dropWhile p := by
  induction ys with
  | nil => cases h
  | cons y ys ih =>
    rw [List.dropWhile_cons]
    split
    · next hy =>
      rcases List.mem_cons.mp h with rfl | h
      · simp [hp] at hy
      · exact ih h
    · exact h

/-- In an ascending list, every member below `x` stands in the initial run below `x`. -/
theorem mem_takeWhile_of_lt {x n : Nat} {ys : List Nat} (hys : ys.Pairwise (· < ·))
    (h : n ∈ ys) (hn : n < x) : n ∈ ys.takeWhile (· < x) := by
  induction ys with
  | nil => cases h
  | cons y ys ih =>
    rw [List.pairwise_cons] at hys
    have hyx : y < x := by
      rcases List.mem_cons.mp h with rfl | h
      · exact hn
      · exact Nat.lt_trans (hys.1 n h) hn
    rw [List.takeWhile_cons, if_pos (by simpa using hyx)]
    rcases List.mem_cons.mp h with rfl | h
    · exact List.mem_cons_self
    · exact List.mem_cons_of_mem _ (ih hys.2 h)

/-- In an ascending list, what is left after dropping the numbers up to `x` is above `x`. -/
theorem lt_of_mem_dropWhile {x n : Nat} {ys : List Nat} (hys : ys.Pairwise (· < ·))
    (h : n ∈ ys.dropWhile (· ≤ x)) : x < n := by
  induction ys with
  | nil => cases h
  | cons y ys ih =>
    rw [List.dropWhile_cons] at h
    rw [List.pairwise_cons] at hys
    split at h
    · exact ih hys.2 h
    · next hy =>
      have hxy : x < y := by simpa using hy
      rcases List.mem_cons.mp h with rfl | h
      · exact hxy
      · exact Nat.lt_trans hxy (hys.1 n h)

/-- The run below a slot holds smaller slots only. -/
theorem lt_of_mem_takeWhile {x n : Nat} {ys : List Nat} (h : n ∈ ys.takeWhile (· < x)) :
    n < x := by
  induction ys with
  | nil => cases h
  | cons y ys ih =>
    rw [List.takeWhile_cons] at h
    split at h
    · next hy =>
      rcases List.mem_cons.mp h with rfl | h
      · simpa using hy
      · exact ih h
    · cases h

/-- A merge has the members of both lists and no others. -/
theorem mem_mergeAscending {n : Nat} {xs ys : List Nat} (hys : ys.Pairwise (· < ·)) :
    n ∈ mergeAscending xs ys ↔ n ∈ xs ∨ n ∈ ys := by
  induction xs generalizing ys with
  | nil => simp [mergeAscending]
  | cons x xs ih =>
    rw [mergeAscending, List.mem_append, List.mem_cons, List.mem_cons,
      ih (hys.sublist (List.dropWhile_sublist _))]
    constructor
    · rintro (h | rfl | h | h)
      · exact .inr ((List.takeWhile_sublist _).mem h)
      · exact .inl (.inl rfl)
      · exact .inl (.inr h)
      · exact .inr ((List.dropWhile_sublist _).mem h)
    · rintro ((rfl | h) | h)
      · exact .inr (.inl rfl)
      · exact .inr (.inr (.inl h))
      · rcases Nat.lt_trichotomy n x with hlt | rfl | hgt
        · exact .inl (mem_takeWhile_of_lt hys h hlt)
        · exact .inr (.inl rfl)
        · exact .inr (.inr (.inr (mem_dropWhile_of_not h (by simpa using hgt))))

/-- A merge of ascending lists is ascending. -/
theorem pairwise_mergeAscending {xs ys : List Nat} (hxs : xs.Pairwise (· < ·))
    (hys : ys.Pairwise (· < ·)) : (mergeAscending xs ys).Pairwise (· < ·) := by
  induction xs generalizing ys with
  | nil => exact hys
  | cons x xs ih =>
    rw [List.pairwise_cons] at hxs
    have hdrop := hys.sublist (List.dropWhile_sublist (· ≤ x))
    have above : ∀ n ∈ mergeAscending xs (ys.dropWhile (· ≤ x)), x < n := fun n h =>
      ((mem_mergeAscending hdrop).mp h).elim (hxs.1 n) (lt_of_mem_dropWhile hys)
    rw [mergeAscending, List.pairwise_append, List.pairwise_cons]
    refine ⟨hys.sublist (List.takeWhile_sublist _), ⟨above, ih hxs.2 hdrop⟩, ?_⟩
    intro a ha b hb
    have hax : a < x := lt_of_mem_takeWhile ha
    rcases List.mem_cons.mp hb with rfl | hb
    · exact hax
    · exact Nat.lt_trans hax (above b hb)

/-- Ascending lists with the same members are equal. -/
theorem eq_of_mem_iff_of_ascending {xs ys : List Nat} (hxs : xs.Pairwise (· < ·))
    (hys : ys.Pairwise (· < ·)) (h : ∀ n, n ∈ xs ↔ n ∈ ys) : xs = ys := by
  induction xs generalizing ys with
  | nil =>
    cases ys with
    | nil => rfl
    | cons y ys => exact absurd ((h y).mpr List.mem_cons_self) List.not_mem_nil
  | cons x xs ih =>
    cases ys with
    | nil => exact absurd ((h x).mp List.mem_cons_self) List.not_mem_nil
    | cons y ys =>
      rw [List.pairwise_cons] at hxs hys
      -- Each of the two least members occurs in the other list, so neither is the smaller one.
      have hxy : x = y := by
        rcases List.mem_cons.mp ((h x).mp List.mem_cons_self) with hx | hx
        · exact hx
        · rcases List.mem_cons.mp ((h y).mpr List.mem_cons_self) with hy | hy
          · exact hy.symm
          · exact absurd (Nat.lt_trans (hxs.1 y hy) (hys.1 x hx)) (Nat.lt_irrefl x)
      subst hxy
      congr 1
      refine ih hxs.2 hys.2 fun n => ⟨fun hn => ?_, fun hn => ?_⟩
      · rcases List.mem_cons.mp ((h n).mp (List.mem_cons_of_mem _ hn)) with rfl | hn'
        · exact absurd (hxs.1 _ hn) (Nat.lt_irrefl _)
        · exact hn'
      · rcases List.mem_cons.mp ((h n).mpr (List.mem_cons_of_mem _ hn)) with rfl | hn'
        · exact absurd (hys.1 _ hn) (Nat.lt_irrefl _)
        · exact hn'

/-! ## Sets of slots -/

/-- A finite set of slots, as the strictly ascending list of its members. -/
structure SlotSet where
  toList : List Nat
  ascending : toList.Pairwise (· < ·)
  deriving DecidableEq

namespace SlotSet

instance : Hashable SlotSet where
  hash s := hash s.toList

instance : Membership Nat SlotSet where
  mem s n := n ∈ s.toList

instance (n : Nat) (s : SlotSet) : Decidable (n ∈ s) :=
  inferInstanceAs (Decidable (n ∈ s.toList))

instance : EmptyCollection SlotSet where
  emptyCollection := ⟨[], .nil⟩

/-- The set that holds one slot. -/
def single (slot : Nat) : SlotSet :=
  ⟨[slot], List.pairwise_singleton _ _⟩

instance : Union SlotSet where
  union a b := ⟨mergeAscending a.toList b.toList, pairwise_mergeAscending a.ascending b.ascending⟩

/-- Whether the set has no members. -/
def isEmpty (s : SlotSet) : Bool :=
  s.toList.isEmpty

@[simp] theorem not_mem_empty (n : Nat) : n ∉ (∅ : SlotSet) :=
  List.not_mem_nil

@[simp] theorem mem_single {n slot : Nat} : n ∈ single slot ↔ n = slot :=
  List.mem_singleton

@[simp] theorem mem_union {n : Nat} {a b : SlotSet} : n ∈ a ∪ b ↔ n ∈ a ∨ n ∈ b :=
  mem_mergeAscending b.ascending

@[simp] theorem mem_toList {n : Nat} {s : SlotSet} : n ∈ s.toList ↔ n ∈ s :=
  Iff.rfl

/-- Two sets with the same members are equal. -/
theorem ext {a b : SlotSet} (h : ∀ n, n ∈ a ↔ n ∈ b) : a = b := by
  cases a
  cases b
  simpa using eq_of_mem_iff_of_ascending ‹_› ‹_› h

end SlotSet

end PhpTypes
