import PhpTypes.DocComment.Basic

/-!
# The tag of a parameter

A parameter is documented by the tag that names it, wherever it stands. Without such a tag, the
tag at the position of the parameter counts, provided it names no variable; positions count tags
`@param` only.
-/

namespace PhpTypes.DocComment

/-- Looks through tags that start at the given position. A tag with the name ends the search; a tag
without a variable at the wanted position is kept as the answer unless a better one follows. -/
def searchParam (index : Nat) (name : String) :
    Nat → Option ParamTag → List ParamTag → Option ParamTag
  | _, found, [] => found
  | position, found, tag :: rest =>
    match tag.variableName with
    | some variableName =>
      if variableName.sameFolded name then some tag
      else searchParam index name (position + 1) found rest
    | none =>
      searchParam index name (position + 1) (if position = index then some tag else found) rest

/-- The tag that documents the parameter at position `index` with the given name, with or without
`$`. -/
def findParam (doc : Option DocComment) (index : Nat) (name : String) : Option ParamTag := do
  let doc ← doc
  searchParam index (.ofList (Text.dropLead ['$'] name.toList)) 0 none doc.paramTags

end PhpTypes.DocComment
