import PhpTypes.TypeExpr.Alternatives
import PhpTypes.TypeExpr.Layers
import PhpTypes.Name.Scope
import PhpTypes.Registry.Transfer

/-!
# Meaning of annotations

An annotation is a word of the vocabulary or the name of a class, possibly wrapped in array
layers. Anything else means `void`: unreadable text only costs precision at its own place. A class
named in an annotation may always be `null`.
-/

namespace PhpTypes.TypeExpr

/-- Whether a character may start a segment of a class name. -/
def isNameStart (c : Char) : Bool :=
  c == '_' || c.isAlpha || !(decide (c.toNat < 128))

/-- Whether a character may stand in a segment of a class name. -/
def isNameChar (c : Char) : Bool :=
  c == '_' || c.isAlphanum || !(decide (c.toNat < 128))

/-- Whether a text is one segment of a class name. -/
def isSegment : List Char → Bool
  | [] => false
  | c :: rest => isNameStart c && rest.all isNameChar

/-- Whether a text is a class name, possibly qualified and possibly with a leading backslash. -/
def isClassName (text : List Char) : Bool :=
  ((Text.dropLead ['\\'] text).splitOn '\\').all isSegment

/-- The mask of an annotation without array layers. -/
def resolveCore (scope : Option Scope) (fullyQualified : Bool) (text : String) (r : Registry) :
    Mask × Registry :=
  if text.isEmpty then (.void, r)
  else
    match Keyword.lookup? text with
    | some keyword => (keyword.mask, r)
    | none =>
      if !isClassName text.toList then (.void, r)
      else
        let name := resolveName scope text fullyQualified
        if name.isPrimitive then (Keyword.maskOf name.name, r)
        else r.nominalMask name true

/-- Wraps a mask in array layers. -/
def wrap (layers : Nat) (result : Mask × Registry) : Mask × Registry :=
  layers.repeat (fun (mask, r) => r.arrayOf mask) result

/-- The mask of an annotation such as `int`, `Foo[]` or `array[\Bar]`, with the registry that holds
the types it names. -/
def resolve (scope : Option Scope) (fullyQualified : Bool) (text : String) (r : Registry) :
    Mask × Registry :=
  let (core, layers) := peel text.toList
  wrap layers <|
    match core with
    | some core => resolveCore scope fullyQualified (.ofList core) r
    | none => (.void, r)

/-- The union of the masks of several annotations; `void` if there are none. -/
def resolveAll (scope : Option Scope) (fullyQualified : Bool) (texts : List String)
    (r : Registry) : Mask × Registry :=
  texts.foldl (fun (acc, r) text =>
    let (mask, r) := resolve scope fullyQualified text r
    (acc ∪ mask, r)) (.void, r)

/-- The mask of the type text of a doc comment, such as `?Foo` or `int|string[]`. -/
def resolveText (scope : Option Scope) (text : String) (r : Registry) : Mask × Registry :=
  resolveAll scope false (splitAlternatives text) r

end PhpTypes.TypeExpr

namespace PhpTypes.Registry

/-- Reads annotations in `source` and moves their union to `target`. The answer holds the mask in
`target`, the target and the source. -/
def resolveAndTransfer (target source : Registry) (scope : Option Scope) (fullyQualified : Bool)
    (texts : List String) : Except TransferError (Mask × Registry × Registry) := do
  let (mask, source) := TypeExpr.resolveAll scope fullyQualified texts source
  let (mask, target) ← target.transfer source mask
  return (mask, target, source)

end PhpTypes.Registry
