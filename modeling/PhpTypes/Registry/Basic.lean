import Std.Data.HashMap
import PhpTypes.Mask.Basic
import PhpTypes.Name.Qualified

/-!
# Registries of types

A registry numbers the classes and the typed arrays that masks refer to. Entries are only ever
added at the end, so a slot, once given out, always stands for the same entry. An index finds the
slot of a type that is already present: classes are the same up to letter case, arrays are the same
if their element masks are equal.
-/

namespace PhpTypes

/-- What a slot stands for. -/
inductive Descriptor where
  /-- A class, interface, trait or enumeration, by its full name without leading backslash. -/
  | classNamed (name : String)
  /-- An array whose elements have the given mask of the same registry. -/
  | arrayOf (element : Mask)
  deriving DecidableEq

/-- What makes two descriptors the same type: the name of a class in lower case, or the element
mask of an array. -/
inductive TypeKey where
  | classNamed (folded : String)
  | arrayOf (element : Mask)
  deriving DecidableEq, Hashable

namespace Descriptor

/-- The key under which a descriptor is found. -/
def key : Descriptor → TypeKey
  | classNamed name => .classNamed name.foldCase
  | arrayOf element => .arrayOf element

/-- The slots that a descriptor refers to. -/
def slots : Descriptor → SlotSet
  | classNamed _ => ∅
  | arrayOf element => element.slots

/-- Whether the descriptor is that of a typed array. -/
def isArray : Descriptor → Bool
  | classNamed _ => false
  | arrayOf _ => true

end Descriptor

/-- The classes and typed arrays seen so far, numbered from zero, with an index by key. -/
structure Registry where
  descriptors : Array Descriptor
  index : Std.HashMap TypeKey Nat

namespace Registry

/-- The registry without entries. -/
def empty : Registry where
  descriptors := #[]
  index := ∅

instance : Inhabited Registry := ⟨empty⟩

/-- The number of entries. -/
def size (r : Registry) : Nat :=
  r.descriptors.size

/-- Whether there are no entries. -/
def isEmpty (r : Registry) : Bool :=
  r.descriptors.isEmpty

/-- The descriptor at a slot, if the registry has that slot. -/
def descriptor? (r : Registry) (slot : Nat) : Option Descriptor :=
  r.descriptors[slot]?

/-- The slot of a descriptor. A type that the registry does not hold yet is added at the end; one
that it holds keeps its slot and the descriptor it was first given. -/
def intern (r : Registry) (d : Descriptor) : Nat × Registry :=
  match r.index[d.key]? with
  | some slot => (slot, r)
  | none =>
    (r.size,
      { descriptors := r.descriptors.push d
        index := r.index.insert d.key r.size })

/-- The mask of arrays with elements of the given mask. Elements of which nothing is known (`void`
or `any`) give the mask of all arrays, and nothing is added. -/
def arrayOf (r : Registry) (element : Mask) : Mask × Registry :=
  if element.isVoid || element.isAny then (.ofKind .array, r)
  else
    let (slot, r) := r.intern (.arrayOf element)
    (.ofKind .array ∪ .ofSlot slot, r)

/-- The mask of the class with the given full name; one leading backslash is dropped. -/
def classMask (r : Registry) (name : String) : Mask × Registry :=
  let name := String.ofList (Text.dropLead ['\\'] name.toList)
  let (slot, r) := r.intern (.classNamed name)
  (.ofSlot slot, r)

/-- The mask of a class by its resolved name, with or without `null`. -/
def nominalMask (r : Registry) (name : QualifiedName) (allowNull : Bool) : Mask × Registry :=
  let (mask, r) := r.classMask name.toText
  (if allowNull then mask ∪ .ofKind .null else mask, r)

/-! ## Lookup and growth -/

@[simp] theorem size_empty : empty.size = 0 := rfl

@[simp] theorem descriptor?_empty (slot : Nat) : empty.descriptor? slot = none := by
  simp [empty, descriptor?]

/-- A slot is that of an entry exactly if it is below the number of entries. -/
theorem isSome_descriptor? {r : Registry} {slot : Nat} :
    (r.descriptor? slot).isSome = true ↔ slot < r.size := by
  simp [descriptor?, size]

end Registry

end PhpTypes
