import PhpTypes.TypeExpr.Alternatives
import PhpTypes.Text.Case

/-!
# Doc comments

A doc comment has a summary and a list of tags. A tag `@param` documents a parameter and is read
into its parts; the body of every other tag is kept as written.
-/

namespace PhpTypes

/-- What a tag `@param` says: a type, a variable and a description, of which the first two may be
missing. -/
structure ParamTag where
  /-- The name of the variable, without sigils. -/
  variableName : Option String
  /-- The type as written. -/
  type : Option String
  description : String
  /-- Whether the variable was written with `...`. -/
  variadic : Bool
  deriving DecidableEq, Repr

/-- A tag whose body is not interpreted. -/
structure OtherTag where
  /-- The name without `@`. -/
  name : String
  body : String
  deriving DecidableEq, Repr

/-- A tag of a doc comment. -/
inductive DocTag where
  | param (tag : ParamTag)
  | other (tag : OtherTag)
  deriving DecidableEq, Repr

/-- The summary and the tags of a doc comment, in the order of the text. -/
structure DocComment where
  /-- The lines before the first tag. -/
  summary : String
  tags : List DocTag
  deriving DecidableEq, Repr

namespace ParamTag

/-- The alternatives of the documented type; none if there is no type. -/
def alternatives (tag : ParamTag) : List String :=
  (tag.type.map TypeExpr.splitAlternatives).getD []

end ParamTag

namespace DocTag

/-- The contents of a tag `@param`. -/
def param? : DocTag → Option ParamTag
  | param tag => some tag
  | other _ => none

/-- The contents of any other tag. -/
def other? : DocTag → Option OtherTag
  | param _ => none
  | other tag => some tag

end DocTag

namespace DocComment

/-- The tags `@param` in order. -/
def paramTags (doc : DocComment) : List ParamTag :=
  doc.tags.filterMap DocTag.param?

/-- The first tag other than `@param` with the given name, in any letter case. -/
def tag? (doc : DocComment) (name : String) : Option OtherTag :=
  (doc.tags.filterMap DocTag.other?).find? fun tag => tag.name.sameFolded name

/-- The type of the tag `@return` as written, if there is one. -/
def returnType? (doc : DocComment) : Option String := do
  let tag ← doc.tag? "return"
  match (TypeExpr.firstType tag.body.toList).1 with
  | [] => none
  | type => some (.ofList type)

end DocComment

end PhpTypes
