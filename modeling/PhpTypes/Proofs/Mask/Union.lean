import Mathlib.Data.Finset.Sort
import Mathlib.Order.WithBot
import PhpTypes.Mask.Basic

/-!
# Unions of masks

Masks form a join-semilattice under union, with `void` at the bottom and `any` at the top. The laws
hold for masks as such, not only for the types they stand for: a mask is in canonical form, so it is
determined by its members. `Mask.members` gives the set of its kinds and the set of its slots, or
the top for `any`. It is injective and takes unions to suprema, and this is where the laws come
from (`Mask.union_laws`).

Kinds are united bit by bit. Slots are united by a merge of two ascending lists, which goes through
both of them from their least members (`mergeAscending_cons_cons`).
-/

namespace PhpTypes

/-! ## The merge -/

/-- A merge with nothing changes nothing. -/
theorem mergeAscending_nil (xs : List Nat) : mergeAscending xs [] = xs := by
  induction xs with
  | nil => rfl
  | cons x xs ih => rw [mergeAscending, List.takeWhile_nil, List.dropWhile_nil, ih, List.nil_append]

/-- A merge takes the smaller one of the two least members, and a common one from both lists. -/
theorem mergeAscending_cons_cons {x y : Nat} {xs ys : List Nat}
    (hys : (y :: ys).Pairwise (· < ·)) :
    mergeAscending (x :: xs) (y :: ys) =
      if x < y then x :: mergeAscending xs (y :: ys)
      else if y < x then y :: mergeAscending (x :: xs) ys
      else x :: mergeAscending xs ys := by
  rw [mergeAscending, List.takeWhile_cons, List.dropWhile_cons]
  rcases Nat.lt_trichotomy x y with hlt | rfl | hgt
  · have hle : ¬ y ≤ x := Nat.not_le.mpr hlt
    have hnot : ¬ y < x := Nat.lt_asymm hlt
    simp only [hlt, hle, hnot, decide_false, if_true, Bool.false_eq_true, if_false, List.nil_append]
  · have habove : ys.dropWhile (· ≤ x) = ys := by
      cases ys with
      | nil => rfl
      | cons z ys =>
        have hz : ¬ z ≤ x := Nat.not_le.mpr ((List.pairwise_cons.mp hys).1 z List.mem_cons_self)
        rw [List.dropWhile_cons, if_neg (by simpa using hz)]
    simp only [Nat.lt_irrefl, Nat.le_refl, decide_false, decide_true, if_true, Bool.false_eq_true,
      if_false, List.nil_append, habove]
  · have hle : y ≤ x := Nat.le_of_lt hgt
    have hnot : ¬ x < y := Nat.lt_asymm hgt
    simp only [hgt, hle, hnot, decide_true, if_true, if_false, List.cons_append, mergeAscending]

/-! ## Sets of members -/

namespace KindSet

/-- The kinds of the set. -/
def toFinset (s : KindSet) : Finset Kind :=
  s.toList.toFinset

/-- A kind is in the finite set exactly if it is in the bit set. -/
@[simp] theorem mem_toFinset {k : Kind} {s : KindSet} : k ∈ s.toFinset ↔ k ∈ s := by
  rw [toFinset, List.mem_toFinset, mem_toList]

/-- Uniting bit by bit unites the sets of kinds. -/
theorem toFinset_union (a b : KindSet) : (a ∪ b).toFinset = a.toFinset ∪ b.toFinset := by
  ext k
  rw [mem_toFinset, mem_union, Finset.mem_union, mem_toFinset, mem_toFinset]

/-- The bits are determined by the kinds. -/
theorem toFinset_injective : Function.Injective toFinset := by
  intro a b h
  refine ext fun k => ?_
  rw [← mem_toFinset, h, mem_toFinset]

end KindSet

namespace SlotSet

/-- The slots of the set. -/
def toFinset (s : SlotSet) : Finset Nat :=
  s.toList.toFinset

/-- A slot is in the finite set exactly if it is in the list. -/
@[simp] theorem mem_toFinset {n : Nat} {s : SlotSet} : n ∈ s.toFinset ↔ n ∈ s := by
  rw [toFinset, List.mem_toFinset, mem_toList]

/-- Merging unites the sets of slots. -/
theorem toFinset_union (a b : SlotSet) : (a ∪ b).toFinset = a.toFinset ∪ b.toFinset := by
  ext n
  rw [mem_toFinset, mem_union, Finset.mem_union, mem_toFinset, mem_toFinset]

/-- An ascending list is determined by its members. -/
theorem toFinset_injective : Function.Injective toFinset := by
  intro a b h
  refine ext fun n => ?_
  rw [← mem_toFinset, h, mem_toFinset]

/-- A set of slots lists its members in ascending order. -/
theorem sort_toFinset (s : SlotSet) : s.toFinset.sort = s.toList := by
  have hnodup : s.toList.Nodup := s.ascending.imp Nat.ne_of_lt
  exact (List.toFinset_sort (· ≤ ·) hnodup).mpr (s.ascending.imp Nat.le_of_lt)

end SlotSet

namespace Mask

/-- The kinds and the slots of a mask; the top for `any`. -/
def members : Mask → WithTop (Finset Kind × Finset Nat)
  | any => ⊤
  | of kinds slots => ↑(kinds.toFinset, slots.toFinset)

/-- The members of `void` are the bottom. -/
theorem members_void : void.members = ⊥ := rfl

/-- The members of `any` are the top. -/
theorem members_any : any.members = ⊤ := rfl

/-- A mask is determined by its members. -/
theorem members_injective : Function.Injective members := by
  intro a b h
  cases a with
  | any =>
    cases b with
    | any => rfl
    | of l t => exact absurd h.symm (WithTop.coe_ne_top)
  | of k s =>
    cases b with
    | any => exact absurd h (WithTop.coe_ne_top)
    | of l t =>
      obtain ⟨hkinds, hslots⟩ := Prod.mk.inj (WithTop.coe_injective h)
      rw [KindSet.toFinset_injective hkinds, SlotSet.toFinset_injective hslots]

/-- The members of a union are those of both masks. -/
theorem members_union (a b : Mask) : (a ∪ b).members = a.members ⊔ b.members := by
  cases a with
  | any => rw [any_union, members_any, top_sup_eq]
  | of k s =>
    cases b with
    | any => rw [union_any, members_any, sup_top_eq]
    | of l t =>
      rw [of_union_of, members, KindSet.toFinset_union, SlotSet.toFinset_union]
      rfl

/-! ## The laws -/

/-- Either mask may come first. -/
theorem union_comm (a b : Mask) : a ∪ b = b ∪ a :=
  members_injective (by rw [members_union, members_union, sup_comm])

/-- Three masks may be united in either grouping. -/
theorem union_assoc (a b c : Mask) : a ∪ b ∪ c = a ∪ (b ∪ c) :=
  members_injective (by simp only [members_union, sup_assoc])

/-- Uniting a mask with itself changes nothing. -/
theorem union_self (a : Mask) : a ∪ a = a :=
  members_injective (by rw [members_union, sup_idem])

/-- Uniting with `void` changes nothing. -/
theorem union_void (a : Mask) : a ∪ void = a :=
  members_injective (by rw [members_union, members_void, sup_bot_eq])

/-- Below the top, kinds and slots are united as sets. -/
theorem union_of_ne_any {a b : Mask} (ha : a ≠ any) (hb : b ≠ any) :
    a ∪ b ≠ any ∧ (∀ k, k ∈ (a ∪ b).kinds ↔ k ∈ a.kinds ∨ k ∈ b.kinds) ∧
      (a ∪ b).slots.toList = (a.slots.toFinset ∪ b.slots.toFinset).sort := by
  cases a with
  | any => exact absurd rfl ha
  | of k s =>
    cases b with
    | any => exact absurd rfl hb
    | of l t =>
      refine ⟨Mask.noConfusion, fun kind => KindSet.mem_union, ?_⟩
      rw [of_union_of, slots_of, slots_of, slots_of, ← SlotSet.toFinset_union,
        SlotSet.sort_toFinset]

/-- Masks are equal if they list the same kinds and slots and both or neither are the top. -/
theorem eq_iff {a b : Mask} : a = b ↔
    a.kinds.toList = b.kinds.toList ∧ a.slots.toList = b.slots.toList ∧ a.isAny = b.isAny := by
  constructor
  · rintro rfl
    exact ⟨rfl, rfl, rfl⟩
  · rintro ⟨hkinds, hslots, hany⟩
    cases a with
    | any =>
      cases b with
      | any => rfl
      | of l t => cases hany
    | of k s =>
      cases b with
      | any => cases hany
      | of l t =>
        rw [kinds_of, kinds_of] at hkinds
        rw [slots_of, slots_of] at hslots
        have hk : k.toFinset = l.toFinset := by rw [KindSet.toFinset, hkinds, KindSet.toFinset]
        have hs : s.toFinset = t.toFinset := by rw [SlotSet.toFinset, hslots, SlotSet.toFinset]
        rw [KindSet.toFinset_injective hk, SlotSet.toFinset_injective hs]

/-- **Masks are a bounded join-semilattice in canonical form.** Union is commutative, associative
and idempotent, `void` is neutral and `any` absorbs. Unless one side is `any`, kinds are united as
sets, and the slots are the strictly ascending list of all slots of both sides. Two masks are equal
exactly if they list the same kinds and slots and both or neither are `any`. -/
theorem union_laws (a b c : Mask) :
    a ∪ b = b ∪ a ∧ a ∪ b ∪ c = a ∪ (b ∪ c) ∧ a ∪ a = a ∧
      (a ∪ void = a ∧ void ∪ a = a) ∧ (a ∪ any = any ∧ any ∪ a = any) ∧
      (a ≠ any → b ≠ any →
        a ∪ b ≠ any ∧ (∀ k, k ∈ (a ∪ b).kinds ↔ k ∈ a.kinds ∨ k ∈ b.kinds) ∧
          (a ∪ b).slots.toList = (a.slots.toFinset ∪ b.slots.toFinset).sort ∧
          (a ∪ b).slots.toList.Pairwise (· < ·)) ∧
      (a = b ↔ a.kinds.toList = b.kinds.toList ∧ a.slots.toList = b.slots.toList ∧
        a.isAny = b.isAny) := by
  refine ⟨union_comm a b, union_assoc a b c, union_self a, ⟨union_void a, ?_⟩,
    ⟨union_any a, any_union a⟩, fun ha hb => ?_, eq_iff⟩
  · rw [union_comm, union_void]
  · obtain ⟨hany, hkinds, hslots⟩ := union_of_ne_any ha hb
    exact ⟨hany, hkinds, hslots, (a ∪ b).slots.ascending⟩

/-- Two masks that share a slot. -/
theorem union_laws_of_common_slot :
    (ofSlot 1 ∪ ofSlot 5 ∪ ofSlot 9) ∪ (ofSlot 5 ∪ ofSlot 7) =
        (ofSlot 5 ∪ ofSlot 7) ∪ (ofSlot 1 ∪ ofSlot 5 ∪ ofSlot 9) ∧
      ((ofSlot 1 ∪ ofSlot 5 ∪ ofSlot 9) ∪ (ofSlot 5 ∪ ofSlot 7)).slots.toList =
        ({1, 5, 9} ∪ {5, 7} : Finset Nat).sort := by
  obtain ⟨hcomm, -, -, -, -, hsets, -⟩ :=
    union_laws (ofSlot 1 ∪ ofSlot 5 ∪ ofSlot 9) (ofSlot 5 ∪ ofSlot 7) void
  obtain ⟨-, -, hslots, -⟩ := hsets (by decide) (by decide)
  exact ⟨hcomm, hslots⟩

end Mask

end PhpTypes
