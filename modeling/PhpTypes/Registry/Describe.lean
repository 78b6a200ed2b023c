import PhpTypes.Registry.Basic

/-!
# Masks in annotation notation

A mask is written as its members with `|` between them, for instance `int|\Foo|null`. A class is
written with a leading backslash. A typed array is written as its element followed by `[]`; an
element with several members stands in parentheses. The bare word `array` is left out beside a
typed array, and `null` comes last.

Arrays may be nested very deeply, so a chain of arrays each of which is the only member of the next
one's element is followed in a loop, and its brackets are written at the end.

The entries of a registry could refer to each other in a circle if masks of other registries were
put into it. Such masks have no text; for this reason the functions here count their steps and
answer `none` when more steps are made than a registry without circles can need.
-/

namespace PhpTypes

namespace Registry

/-- The slot of a mask that consists of exactly one typed array, with at most the kind `array`
beside it. -/
def soleArray? (r : Registry) (m : Mask) : Option Nat :=
  match m with
  | .any => none
  | .of kinds slots =>
    if kinds.toList.any (· != .array) then none
    else
      match slots.toList with
      | [slot] => if ((r.descriptor? slot).any Descriptor.isArray) then some slot else none
      | _ => none

/-- Whether a mask refers to a typed array. -/
def hasTypedArray (r : Registry) (m : Mask) : Bool :=
  m.slots.toList.any fun slot => (r.descriptor? slot).any Descriptor.isArray

/-- The words for the kinds of a mask other than `null`. -/
def kindWords (r : Registry) (m : Mask) : List (List Char) :=
  let shown := m.kinds.toList.filter fun k =>
    k != .null && !(k == .array && r.hasTypedArray m)
  shown.map fun k => k.keyword.toList

/-- The members of a mask in text, given the texts of slots. -/
def partsWith (r : Registry) (slotText : Nat → Option (List Char)) (m : Mask) :
    Option (List (List Char)) := do
  let slotTexts ← m.slots.toList.mapM slotText
  let nullWords := if m.contains .null then ["null".toList] else []
  return r.kindWords m ++ slotTexts ++ nullWords

/-- The member texts of an element as the operand of `[]`. -/
def elementText (parts : List (List Char)) : List Char :=
  if parts.length > 1 then '(' :: Text.join '|' parts ++ [')'] else parts.flatten

/-- The text with `[]` behind it, `layers` times. -/
def addBrackets (text : List Char) (layers : Nat) : List Char :=
  text ++ (List.replicate layers ['[', ']']).flatten

/-- Follows sole typed arrays from a slot to the last one of the chain, counting the steps. -/
def followArrays? (r : Registry) : Nat → Nat → Nat → Option (Nat × Nat)
  | 0, _, _ => none
  | steps + 1, slot, layers =>
    match r.descriptor? slot with
    | some (.arrayOf element) =>
      match r.soleArray? element with
      | some inner => r.followArrays? steps inner (layers + 1)
      | none => some (slot, layers)
    | _ => some (slot, layers)

/-- The text of a slot, within a number of nested elements. A slot that the registry lacks is
written as its number. -/
def slotText? (r : Registry) : Nat → Nat → Option (List Char)
  | 0, _ => none
  | depth + 1, slot => do
    let (last, layers) ← r.followArrays? (r.size + 1) slot 0
    match r.descriptor? last with
    | some (.classNamed name) => return addBrackets ('\\' :: name.toList) layers
    | some (.arrayOf element) =>
      -- The last array of the chain adds a layer to those in front of it.
      let parts ← r.partsWith (fun slot => r.slotText? depth slot) element
      return addBrackets (elementText parts) (layers + 1)
    | none => return addBrackets ('#' :: (toString last).toList) layers

/-- The text of a mask, unless its arrays are nested in a circle. -/
def describe? (r : Registry) (m : Mask) : Option String := do
  if m.isAny then return "mixed"
  if m.isVoid then return "void"
  let parts ← r.partsWith (r.slotText? (r.size + 1)) m
  return String.ofList (Text.join '|' parts)

/-- The text of a mask; empty if its arrays are nested in a circle. -/
def describe (r : Registry) (m : Mask) : String :=
  (r.describe? m).getD ""

/-- The text of a slot; empty if its arrays are nested in a circle. -/
def describeSlot (r : Registry) (slot : Nat) : String :=
  ((r.slotText? (r.size + 1) slot).map String.ofList).getD ""

/-- The texts of all entries in the order of their slots. -/
def snapshot (r : Registry) : List (Nat × String) :=
  (List.range r.size).map fun slot => (slot, r.describeSlot slot)

end Registry

end PhpTypes
