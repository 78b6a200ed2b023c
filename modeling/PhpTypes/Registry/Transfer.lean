import PhpTypes.Registry.Basic

/-!
# Moving masks between registries

Slots are private to the registry that gave them out. To use a mask with another registry, the
entries it refers to are looked up in the source and interned in the target; kinds carry over as
they are. The elements of an array come before the array itself.

The entries still to be moved are kept on a stack of tasks, so arrays may be nested to any depth.
A memo holds the masks of the entries that were moved before, and no entry is moved twice.
-/

namespace PhpTypes

/-- Why a mask cannot be moved. -/
inductive TransferError where
  /-- The mask refers to a slot that its registry, with `size` entries, never gave out. -/
  | foreignSlot (slot size : Nat)
  /-- Entries of the source refer to each other in a circle. -/
  | circular
  deriving DecidableEq, Repr

namespace TransferError

/-- The text of the error. -/
def message : TransferError → String
  | foreignSlot slot size =>
    "type mask references slot " ++ toString slot ++ ", but the source context only has " ++
      toString size ++ " entries"
  | circular => "type descriptors refer to each other in a circle"

end TransferError

namespace Transfer

/-- A step of work on one slot of the source. -/
inductive Task where
  /-- Move the entry; for an array, its elements first. -/
  | visit (slot : Nat)
  /-- Move the array, whose elements have been moved. -/
  | finish (slot : Nat)
  deriving DecidableEq, Repr

/-- The target so far, and the masks of the entries that have been moved. -/
structure State where
  target : Registry
  memo : Std.HashMap Nat Mask

/-- The element mask in terms of the target, given the masks of its entries. -/
def element (memo : Std.HashMap Nat Mask) (m : Mask) : Mask :=
  m.slots.toList.foldl (fun out slot => (memo[slot]?).elim out (out ∪ ·)) m.kindPart

/-- Adds an entry to the target and notes its mask as that of a slot of the source. The state is
taken apart first, so that no second reference keeps its parts from being changed in place. -/
def State.record (s : State) (slot : Nat) (add : Registry → Mask × Registry) : State :=
  let ⟨target, memo⟩ := s
  let (mask, target) := add target
  { target, memo := memo.insert slot mask }

/-- Does one task. The answer holds the tasks that have to be done next. -/
def step (source : Registry) (task : Task) (s : State) :
    Except TransferError (List Task × State) :=
  match task with
  | .visit slot =>
    if s.memo.contains slot then .ok ([], s)
    else
      match source.descriptor? slot with
      | some (.classNamed name) => .ok ([], s.record slot (·.classMask name))
      | some (.arrayOf m) =>
        -- The elements go on the stack above the array, with the highest slot on top.
        let missing := m.slots.toList.filter fun inner => !s.memo.contains inner
        .ok (missing.reverse.map .visit ++ [.finish slot], s)
      | none => .error (.foreignSlot slot source.size)
  | .finish slot =>
    if s.memo.contains slot then .ok ([], s)
    else
      match source.descriptor? slot with
      | some (.classNamed name) => .ok ([], s.record slot (·.classMask name))
      | some (.arrayOf m) =>
        let inner := element s.memo m
        .ok ([], s.record slot (·.arrayOf inner))
      | none => .error (.foreignSlot slot source.size)

/-- Does the tasks on the stack and those they give rise to, in at most `steps` steps. -/
def run (source : Registry) : Nat → List Task → State → Except TransferError State
  | _, [], s => .ok s
  | 0, _ :: _, _ => .error .circular
  | steps + 1, task :: rest, s => do
    let (next, s) ← step source task s
    run source steps (next ++ rest) s

/-- More steps than one slot of a source without circles can need: an array is taken apart at most
once, which gives one task for itself and one for each slot of its element. -/
def stepBound (source : Registry) : Nat :=
  source.descriptors.foldl (fun n d => n + 1 + d.slots.toList.length) 1

/-- Moves the entry at a slot and the entries it depends on. -/
def moveSlot (source : Registry) (s : State) (slot : Nat) : Except TransferError State :=
  run source (stepBound source) [.visit slot] s

end Transfer

namespace Registry

/-- The mask that denotes in `target` the types that `m` denotes in `source`, and the target with
the entries it needs. -/
def transfer (target source : Registry) (m : Mask) : Except TransferError (Mask × Registry) := do
  let s ← m.slots.toList.foldlM (Transfer.moveSlot source) { target, memo := ∅ }
  return (Transfer.element s.memo m, s.target)

end Registry

end PhpTypes
