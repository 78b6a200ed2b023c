import PhpTypes.Mask.Kind
import PhpTypes.Mask.Slots

/-!
# Type masks

A type mask stands for a union of possible run-time types: a set of primitive kinds together with
a set of slots of one registry. Two masks are special. The mask without kinds and slots is `void`:
nothing is known. The mask `any` is the top: it holds no kinds and slots of its own and absorbs
every other mask in a union.
-/

namespace PhpTypes

/-- A union of possible run-time types; its slots belong to one registry. -/
inductive Mask where
  /-- Every type. -/
  | any
  /-- The types of the given kinds, and those that the given slots stand for. -/
  | of (kinds : KindSet) (slots : SlotSet)
  deriving DecidableEq, Hashable

namespace Mask

/-- No type information. -/
def void : Mask :=
  .of ∅ ∅

/-- The mask of one primitive kind. -/
def ofKind (k : Kind) : Mask :=
  .of (.single k) ∅

/-- The mask of one slot. -/
def ofSlot (slot : Nat) : Mask :=
  .of ∅ (.single slot)

/-- The kinds that are listed in the mask; `any` lists none. -/
def kinds : Mask → KindSet
  | any => ∅
  | of kinds _ => kinds

/-- The slots that the mask refers to; `any` refers to none. -/
def slots : Mask → SlotSet
  | any => ∅
  | of _ slots => slots

/-- Whether the mask is the top. -/
def isAny : Mask → Bool
  | any => true
  | of _ _ => false

/-- Whether the mask holds no type information. -/
def isVoid (m : Mask) : Bool :=
  m == void

/-- Whether values of the kind belong to the mask; every kind belongs to `any`. -/
def contains (m : Mask) (k : Kind) : Bool :=
  m.isAny || m.kinds.contains k

/-- Whether the mask refers to a slot. -/
def hasSlots (m : Mask) : Bool :=
  !m.slots.isEmpty

/-- The mask without its slots. -/
def kindPart : Mask → Mask
  | any => any
  | of kinds _ => of kinds ∅

/-- The union of two masks; `any` absorbs every mask. -/
protected def union : Mask → Mask → Mask
  | any, _ => any
  | of _ _, any => any
  | of k s, of l t => of (k ∪ l) (s ∪ t)

instance : Union Mask where
  union := Mask.union

/-- The union of a list of masks, from the left. -/
def unionAll (ms : List Mask) : Mask :=
  ms.foldl (· ∪ ·) void

/-- The raw form of a mask: the labels of its kinds, then its slots as numbers. -/
def rawText (m : Mask) : String :=
  if m.isAny then "TypeMask(any)"
  else if m.isVoid then "TypeMask(void)"
  else
    let labels := m.kinds.toList.map Kind.label
    let numbers := m.slots.toList.map fun slot => "#" ++ toString slot
    "[" ++ ", ".intercalate (labels ++ numbers) ++ "]"

@[simp] theorem kinds_of (kinds : KindSet) (slots : SlotSet) : (of kinds slots).kinds = kinds := rfl

@[simp] theorem slots_of (kinds : KindSet) (slots : SlotSet) : (of kinds slots).slots = slots := rfl

@[simp] theorem any_union (m : Mask) : any ∪ m = any := rfl

/-- The top absorbs every mask from the right as well. -/
@[simp] theorem union_any (m : Mask) : m ∪ any = any := by
  cases m <;> rfl

/-- Below the top, kinds and slots are united on their own. -/
@[simp] theorem of_union_of (k l : KindSet) (s t : SlotSet) :
    of k s ∪ of l t = of (k ∪ l) (s ∪ t) := rfl

/-- The kinds of a mask alone refer to no slots. -/
@[simp] theorem slots_kindPart (m : Mask) : m.kindPart.slots = ∅ := by
  cases m <;> rfl

end Mask

end PhpTypes
