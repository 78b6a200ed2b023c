import PhpTypes.TypeExpr.Meaning
import PhpTypes.DocComment.Lookup
import PhpTypes.Routine

/-!
# Signatures

The signature of a routine gives a mask for every parameter and for the result. What the doc
comment says about a type comes before the native hint, and the native hint before nothing. A
signature that was resolved in a registry of its own can be moved to another registry.
-/

namespace PhpTypes

/-- Where a type was taken from. -/
inductive Provenance where
  /-- A tag `@param` or `@return`. -/
  | docComment
  /-- The native hint of the declaration. -/
  | native
  /-- Nothing was declared. -/
  | absent
  deriving DecidableEq, Repr

namespace Provenance

/-- The word for the provenance in a report. -/
def label : Provenance → String
  | docComment => "docblock"
  | native => "native"
  | absent => "none"

end Provenance

/-- A parameter with its mask. -/
structure ResolvedParameter where
  /-- The name without `$`. -/
  name : String
  mask : Mask
  provenance : Provenance

/-- The masks of the parameters and of the result of a routine. -/
structure Signature where
  parameters : List ResolvedParameter
  returns : Mask
  returnProvenance : Provenance

namespace Signature

/-- The mask of a native hint, or `void` without one. -/
def resolveHint (scope : Scope) (hint : Option String) (r : Registry) :
    (Mask × Provenance) × Registry :=
  match hint with
  | some hint =>
    let (mask, r) := TypeExpr.resolveText (some scope) hint r
    ((mask, .native), r)
  | none => ((.void, .absent), r)

/-- Resolves the parameter at a position. -/
def resolveParameter (routine : Routine) (index : Nat) (parameter : Parameter) (r : Registry) :
    ResolvedParameter × Registry :=
  let name := String.ofList (Text.dropLead ['$'] parameter.name.toList)
  -- A tag without a type documents nothing about the type.
  let documented := (DocComment.findParam routine.doc index name).filter (·.type.isSome)
  match documented with
  | some tag =>
    let (mask, r) := TypeExpr.resolveAll (some routine.scope) false tag.alternatives r
    (⟨name, mask, .docComment⟩, r)
  | none =>
    let ((mask, provenance), r) := resolveHint routine.scope parameter.hint r
    (⟨name, mask, provenance⟩, r)

/-- Resolves parameters from a position on, from left to right. -/
def resolveParameters (routine : Routine) :
    Nat → List Parameter → Registry → List ResolvedParameter × Registry
  | _, [], r => ([], r)
  | index, parameter :: rest, r =>
    let (first, r) := resolveParameter routine index parameter r
    let (others, r) := resolveParameters routine (index + 1) rest r
    (first :: others, r)

/-- Resolves the type of the result. -/
def resolveReturn (routine : Routine) (r : Registry) : (Mask × Provenance) × Registry :=
  match routine.doc.bind DocComment.returnType? with
  | some text =>
    let (mask, r) := TypeExpr.resolveText (some routine.scope) text r
    ((mask, .docComment), r)
  | none => resolveHint routine.scope routine.returnHint r

/-- The signature of a routine, and the registry with the types it names. -/
def resolve (routine : Routine) (r : Registry) : Signature × Registry :=
  let (parameters, r) := resolveParameters routine 0 routine.parameters r
  let ((returns, returnProvenance), r) := resolveReturn routine r
  ({ parameters, returns, returnProvenance }, r)

/-- Moves parameters to another registry, from left to right. -/
def transferParameters (source : Registry) :
    List ResolvedParameter → Registry → Except TransferError (List ResolvedParameter × Registry)
  | [], target => .ok ([], target)
  | parameter :: rest, target => do
    let (mask, target) ← target.transfer source parameter.mask
    let (others, target) ← transferParameters source rest target
    return ({ parameter with mask } :: others, target)

/-- Moves a signature from `source` to `target`. -/
def transfer (target source : Registry) (s : Signature) :
    Except TransferError (Signature × Registry) := do
  let (parameters, target) ← transferParameters source s.parameters target
  let (returns, target) ← target.transfer source s.returns
  return ({ s with parameters, returns }, target)

end Signature

end PhpTypes
